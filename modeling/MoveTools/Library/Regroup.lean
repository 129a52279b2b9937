import Mathlib.Data.Nat.Digits.Lemmas

namespace MoveTools.Regroup

def value (base : ℕ) (xs : List ℕ) : ℕ := Nat.ofDigits base xs.reverse

theorem value_concat (base : ℕ) (xs : List ℕ) (x : ℕ) :
    value base (xs ++ [x]) = base * value base xs + x := by
  rw [value, List.reverse_append, List.reverse_singleton, List.singleton_append, Nat.ofDigits_cons,
    Nat.add_comm]
  rfl

theorem value_lt {base : ℕ} {xs : List ℕ} (hbase : 1 < base) (h : ∀ x ∈ xs, x < base) :
    value base xs < base ^ xs.length := by
  have hlt := Nat.ofDigits_lt_base_pow_length (l := xs.reverse) hbase
    fun x hx => h x (List.mem_reverse.mp hx)
  rwa [List.length_reverse] at hlt

theorem eq_of_value_eq {base : ℕ} {xs ys : List ℕ} (hbase : 1 < base)
    (hlen : xs.length = ys.length) (hx : ∀ x ∈ xs, x < base) (hy : ∀ y ∈ ys, y < base)
    (h : value base xs = value base ys) : xs = ys := by
  apply List.reverse_injective
  apply Nat.ofDigits_inj_of_len_eq hbase
  · rw [List.length_reverse, List.length_reverse, hlen]
  · exact fun x hm => hx x (List.mem_reverse.mp hm)
  · exact fun y hm => hy y (List.mem_reverse.mp hm)
  · exact h

def fixed (base : ℕ) : ℕ → ℕ → List ℕ
  | 0, _ => []
  | n + 1, a => fixed base n (a / base) ++ [a % base]

@[simp] theorem fixed_length (base n a : ℕ) : (fixed base n a).length = n := by
  induction n generalizing a with
  | zero => rfl
  | succ n ih => simp [fixed, ih]

theorem fixed_lt {base n a x : ℕ} (hbase : 0 < base) (h : x ∈ fixed base n a) : x < base := by
  induction n generalizing a with
  | zero => cases h
  | succ n ih =>
    rcases List.mem_append.mp h with h | h
    · exact ih h
    · rw [List.mem_singleton.mp h]
      exact Nat.mod_lt _ hbase

theorem value_fixed {base n a : ℕ} (h : a < base ^ n) : value base (fixed base n a) = a := by
  induction n generalizing a with
  | zero =>
    have : a = 0 := by simpa using h
    subst this
    rfl
  | succ n ih =>
    rw [Nat.pow_succ] at h
    rw [fixed, value_concat, ih (Nat.div_lt_of_lt_mul (by rwa [Nat.mul_comm]))]
    exact Nat.div_add_mod a base

/-- The bits of `xs`, `f` in each, in groups of `t`. The last group is filled up with zeros. -/
structure IsRegrouping (f t : ℕ) (xs ys : List ℕ) : Prop where
  lt : ∀ y ∈ ys, y < 2 ^ t
  length : ys.length = (f * xs.length + t - 1) / t
  value : value (2 ^ t) ys = value (2 ^ f) xs * 2 ^ (t * ys.length - f * xs.length)

def regroup (f t : ℕ) (xs : List ℕ) : List ℕ :=
  let n := (f * xs.length + t - 1) / t
  fixed (2 ^ t) n (value (2 ^ f) xs * 2 ^ (t * n - f * xs.length))

variable {f t : ℕ} {xs ys zs : List ℕ}

theorem le_mul_ceil (n : ℕ) (ht : 0 < t) : n ≤ t * ((n + t - 1) / t) := by
  have hmod := Nat.mod_lt (n + t - 1) ht
  have hdiv := Nat.div_add_mod (n + t - 1) t
  omega

theorem isRegrouping_regroup (hf : 0 < f) (ht : 0 < t) (h : ∀ x ∈ xs, x < 2 ^ f) :
    IsRegrouping f t xs (regroup f t xs) where
  lt := fun y hy => fixed_lt (Nat.two_pow_pos t) hy
  length := fixed_length _ _ _
  value := by
    have hroom := le_mul_ceil (f * xs.length) ht
    rw [regroup, value_fixed]
    · rw [fixed_length]
    · have hlt := value_lt (Nat.one_lt_two_pow hf.ne') h
      rw [← Nat.pow_mul] at hlt ⊢
      calc value (2 ^ f) xs * 2 ^ (t * _ - f * xs.length)
          < 2 ^ (f * xs.length) * 2 ^ (t * _ - f * xs.length) :=
            Nat.mul_lt_mul_of_pos_right hlt (Nat.two_pow_pos _)
        _ = 2 ^ (t * ((f * xs.length + t - 1) / t)) := by
            rw [← Nat.pow_add, Nat.add_sub_cancel' hroom]

/-- Without a filled group, regrouping is undone by regrouping back. -/
theorem IsRegrouping.inverse (h : IsRegrouping f t xs ys) (h' : IsRegrouping t f ys zs)
    (hf : 0 < f) (hx : ∀ x ∈ xs, x < 2 ^ f) (hexact : f * xs.length = t * ys.length) : zs = xs := by
  have hlen : zs.length = xs.length := by
    rw [h'.length, ← hexact, Nat.add_sub_assoc hf, Nat.mul_add_div hf,
      Nat.div_eq_of_lt (Nat.sub_lt hf Nat.one_pos), Nat.add_zero]
  have hvalue : Regroup.value (2 ^ f) zs = Regroup.value (2 ^ f) xs := by
    rw [h'.value, h.value, hlen, hexact, Nat.sub_self]
    simp
  exact eq_of_value_eq (Nat.one_lt_two_pow hf.ne') hlen h'.lt hx hvalue

end MoveTools.Regroup
