import Mathlib.Order.Bounds.Basic
import Mathlib.Data.List.Pairwise

namespace MoveTools.Adjacent

variable {α : Type*}

/-- The items of the numbers just below `bound`, from a list that descends. -/
def takeBelow : List (ℕ × α) → ℕ → List α
  | [], _ => []
  | _ :: _, 0 => []
  | (n, a) :: xs, bound + 1 => if n = bound then a :: takeBelow xs bound else takeBelow xs (bound + 1)

/-- The `k` numbers below `bound` all have an item. -/
def Filled (xs : List (ℕ × α)) (bound k : ℕ) : Prop :=
  k ≤ bound ∧ ∀ n, bound - k ≤ n → n < bound → ∃ a, (n, a) ∈ xs

variable {xs : List (ℕ × α)} {n bound k : ℕ} {a : α}

theorem filled_zero : Filled xs bound 0 :=
  ⟨Nat.zero_le _, fun _ h h' => absurd h' (Nat.not_lt.mpr h)⟩

theorem Filled.eq_zero (h : Filled xs (bound + 1) k) (hno : ∀ a, (bound, a) ∉ xs) : k = 0 := by
  by_contra hk
  obtain ⟨a, ha⟩ := h.2 bound (by omega) (Nat.lt_succ_self _)
  exact hno a ha

theorem filled_cons_hit (hxs : ∀ x ∈ xs, x.1 < bound) :
    Filled ((bound, a) :: xs) (bound + 1) (k + 1) ↔ Filled xs bound k := by
  constructor
  · rintro ⟨hk, h⟩
    refine ⟨Nat.le_of_succ_le_succ hk, fun n hn hlt => ?_⟩
    obtain ⟨b, hb⟩ := h n (by omega) (by omega)
    rcases List.mem_cons.mp hb with heq | hb
    · rw [(Prod.mk.inj heq).1] at hlt
      exact absurd hlt (Nat.lt_irrefl _)
    · exact ⟨b, hb⟩
  · rintro ⟨hk, h⟩
    refine ⟨Nat.succ_le_succ hk, fun n hn hlt => ?_⟩
    rcases Nat.lt_succ_iff_lt_or_eq.mp hlt with hlt | rfl
    · obtain ⟨b, hb⟩ := h n (by omega) hlt
      exact ⟨b, List.mem_cons_of_mem _ hb⟩
    · exact ⟨a, List.mem_cons_self ..⟩

theorem filled_cons_above (h : bound < n) : Filled ((n, a) :: xs) (bound + 1) k ↔
    Filled xs (bound + 1) k := by
  refine and_congr_right fun _ => forall_congr' fun m => imp_congr_right fun _ => ?_
  refine imp_congr_right fun hm => exists_congr fun b => ?_
  rw [List.mem_cons, or_iff_right]
  intro heq
  have := (Prod.mk.inj heq).1
  omega

theorem takeBelow_hit (xs : List (ℕ × α)) (bound : ℕ) (a : α) :
    takeBelow ((bound, a) :: xs) (bound + 1) = a :: takeBelow xs bound := if_pos rfl

theorem takeBelow_skip (xs : List (ℕ × α)) (a : α) (h : n ≠ bound) :
    takeBelow ((n, a) :: xs) (bound + 1) = takeBelow xs (bound + 1) := if_neg h

theorem takeBelow_of_lt (hxs : ∀ x ∈ xs, x.1 < bound) : takeBelow xs (bound + 1) = [] := by
  induction xs with
  | nil => rfl
  | cons x xs ih =>
    obtain ⟨hx, hxs⟩ := List.forall_mem_cons.mp hxs
    rw [takeBelow_skip xs x.2 (Nat.ne_of_lt hx), ih hxs]

/-- What is taken is all that is filled. -/
theorem takeBelow_isGreatest (hxs : xs.Pairwise fun x y => y.1 < x.1) (bound : ℕ) :
    IsGreatest {k | Filled xs bound k} (takeBelow xs bound).length := by
  induction xs generalizing bound with
  | nil =>
    refine ⟨filled_zero, fun k hk => ?_⟩
    cases bound with
    | zero => exact hk.1
    | succ bound => exact (hk.eq_zero fun a => List.not_mem_nil).le
  | cons x xs ih =>
    obtain ⟨n, a⟩ := x
    obtain ⟨hbelow, hrest⟩ := List.pairwise_cons.mp hxs
    cases bound with
    | zero => exact ⟨filled_zero, fun k hk => hk.1⟩
    | succ bound =>
      rcases Nat.lt_trichotomy n bound with hlt | rfl | hgt
      · -- the items go on below the number that would be next
        have hall : ∀ x ∈ (n, a) :: xs, x.1 < bound :=
          List.forall_mem_cons.mpr ⟨hlt, fun x hx => (hbelow x hx).trans hlt⟩
        rw [takeBelow_of_lt hall]
        refine ⟨filled_zero, fun k hk => (hk.eq_zero fun b hb => ?_).le⟩
        exact absurd (hall _ hb) (Nat.lt_irrefl _)
      · obtain ⟨hfilled, hgreatest⟩ := ih hrest n
        rw [takeBelow_hit, List.length_cons]
        refine ⟨(filled_cons_hit hbelow).mpr hfilled, fun k hk => ?_⟩
        cases k with
        | zero => exact Nat.zero_le _
        | succ k => exact Nat.succ_le_succ (hgreatest ((filled_cons_hit hbelow).mp hk))
      · rw [takeBelow_skip xs a (Nat.ne_of_gt hgt)]
        simp only [filled_cons_above hgt]
        exact ih hrest (bound + 1)

theorem takeBelow_eq_filter (hxs : xs.Pairwise fun x y => y.1 < x.1) (bound : ℕ) :
    takeBelow xs bound = (xs.filter fun x =>
      bound - (takeBelow xs bound).length ≤ x.1 && x.1 < bound).map Prod.snd := by
  induction xs generalizing bound with
  | nil => rfl
  | cons x xs ih =>
    obtain ⟨n, a⟩ := x
    obtain ⟨hbelow, hrest⟩ := List.pairwise_cons.mp hxs
    cases bound with
    | zero =>
      rw [List.filter_eq_nil_iff.mpr (by simp)]
      rfl
    | succ bound =>
      rcases Nat.lt_trichotomy n bound with hlt | rfl | hgt
      · have hall : ∀ x ∈ (n, a) :: xs, x.1 < bound :=
          List.forall_mem_cons.mpr ⟨hlt, fun x hx => (hbelow x hx).trans hlt⟩
        rw [takeBelow_of_lt hall, List.filter_eq_nil_iff.mpr]
        · rfl
        · intro x hx
          have := hall x hx
          simp only [List.length_nil, Nat.sub_zero, Bool.and_eq_true, decide_eq_true_eq]
          omega
      · rw [takeBelow_hit, List.length_cons, List.filter_cons_of_pos (by simp), List.map_cons]
        refine congrArg (a :: ·) ?_
        conv_lhs => rw [ih hrest n]
        refine congrArg (List.map Prod.snd) (List.filter_congr fun x hx => ?_)
        have := hbelow x hx
        rw [Nat.add_sub_add_right, decide_eq_true this, decide_eq_true (by omega : x.1 < n + 1)]
      · rw [takeBelow_skip xs a (Nat.ne_of_gt hgt), List.filter_cons_of_neg (by simp; omega)]
        exact ih hrest (bound + 1)

end MoveTools.Adjacent
