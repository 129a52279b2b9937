import Mathlib.Data.List.Induction
import MoveTools.Library.Text

namespace MoveTools.Decimal

/-! Decimal numerals: how numbers are written, and how they are read. -/

/-- `{}` of an unsigned integer. -/
def display (n : ℕ) : Text := Nat.toDigits 10 n

def value (s : Text) : ℕ := Nat.ofDigitChars 10 s 0

/-- The text of a number that is not zero. -/
def IsPositive (s : Text) : Prop := s ≠ [] ∧ (∀ c ∈ s, c.isDigit) ∧ s.head? ≠ some '0'

instance (s : Text) : Decidable (IsPositive s) :=
  inferInstanceAs (Decidable (_ ∧ _ ∧ _))

@[simp] theorem value_display (n : ℕ) : value (display n) = n := Nat.ofDigitChars_ten_toDigits

theorem display_injective : Function.Injective display := fun m n h => by
  rw [← value_display m, h, value_display]

theorem isDigit_of_mem_display {n : ℕ} {c : Char} (h : c ∈ display n) : c.isDigit :=
  Nat.isDigit_of_mem_toDigits (by decide) (by decide) h

theorem value_append_digit (s : Text) (c : Char) :
    value (s ++ [c]) = 10 * value s + (c.toNat - '0'.toNat) := by
  unfold value
  rw [Nat.ofDigitChars_append, Nat.ofDigitChars_cons, Nat.ofDigitChars_nil]

theorem digitChar_ofNat : ∀ d < 10, Nat.digitChar ((Char.ofNat (48 + d)).toNat - '0'.toNat) =
    Char.ofNat (48 + d) := by decide

theorem digitChar_digit {c : Char} (h : c.isDigit) :
    c.toNat - '0'.toNat < 10 ∧ Nat.digitChar (c.toNat - '0'.toNat) = c := by
  have hrange : 48 ≤ c.toNat ∧ c.toNat ≤ 57 := by
    rw [Char.isDigit, Bool.and_eq_true, decide_eq_true_eq, decide_eq_true_eq] at h
    exact h
  have hzero : '0'.toNat = 48 := rfl
  have hchar : c = Char.ofNat (48 + (c.toNat - 48)) := by
    rw [Nat.add_sub_cancel' hrange.1, Char.ofNat_toNat]
  refine ⟨by omega, ?_⟩
  have hd := digitChar_ofNat (c.toNat - 48) (by omega)
  rwa [← hchar] at hd

theorem display_append_digit {n : ℕ} {c : Char} (hn : 0 < n) (hc : c.isDigit) :
    display (10 * n + (c.toNat - '0'.toNat)) = display n ++ [c] := by
  obtain ⟨hlt, hchar⟩ := digitChar_digit hc
  unfold display
  rw [← Nat.toDigits_append_toDigits (by decide) hn hlt, Nat.toDigits_of_lt_base hlt, hchar]

/-- Without zeros in front a numeral is how its value is written. -/
theorem display_value {s : Text} (h : IsPositive s) : display (value s) = s ∧ 0 < value s := by
  induction s using List.reverseRecOn with
  | nil => exact absurd rfl h.1
  | append_singleton s c ih =>
    obtain ⟨-, hdigits, hhead⟩ := h
    have hc : c.isDigit := hdigits c (List.mem_append_right _ (List.mem_singleton_self c))
    rw [value_append_digit]
    by_cases hs : s = []
    · subst hs
      obtain ⟨hlt, hchar⟩ := digitChar_digit hc
      have hzero : c.toNat - '0'.toNat ≠ 0 := fun h0 => hhead (by
        rw [h0] at hchar
        exact congrArg some hchar.symm)
      refine ⟨?_, by omega⟩
      show display (10 * 0 + (c.toNat - '0'.toNat)) = [c]
      rw [Nat.mul_zero, Nat.zero_add, display, Nat.toDigits_of_lt_base hlt, hchar]
    · rw [List.head?_append_of_ne_nil _ hs] at hhead
      obtain ⟨hshown, hpos⟩ :=
        ih ⟨hs, fun d hd => hdigits d (List.mem_append_left _ hd), hhead⟩
      refine ⟨?_, by omega⟩
      rw [display_append_digit hpos hc, hshown]

theorem isPositive_display {n : ℕ} (hn : 0 < n) : IsPositive (display n) := by
  refine ⟨Nat.toDigits_ne_nil, fun c => isDigit_of_mem_display, ?_⟩
  induction n using Nat.strongRecOn with
  | ind n ih =>
    by_cases hlt : n < 10
    · intro hhead
      rw [display, Nat.toDigits_of_lt_base hlt] at hhead
      have hvalue := value_display n
      rw [display, Nat.toDigits_of_lt_base hlt, Option.some.inj hhead] at hvalue
      exact absurd hvalue (by rw [show value ['0'] = 0 from rfl]; omega)
    · rw [display, Nat.toDigits_of_base_le (by decide) (by omega),
        List.head?_append_of_ne_nil _ Nat.toDigits_ne_nil]
      exact ih (n / 10) (by omega) (by omega)

theorem isPositive_below_iff {s : Text} {n : ℕ} :
    IsPositive s ∧ value s < n ↔ ∃ i, 0 < i ∧ i < n ∧ s = display i := by
  constructor
  · rintro ⟨h, hlt⟩
    obtain ⟨hshown, hpos⟩ := display_value h
    exact ⟨value s, hpos, hlt, hshown.symm⟩
  · rintro ⟨i, hpos, hlt, rfl⟩
    exact ⟨isPositive_display hpos, by rwa [value_display]⟩

inductive IntErrorKind where
  | Empty | InvalidDigit | PosOverflow
  deriving DecidableEq, Repr

def parseDigits (bits : ℕ) (n : ℕ) : Text → Except IntErrorKind ℕ
  | [] => .ok n
  | c :: s =>
    if c.isDigit then
      let next := 10 * n + (c.toNat - '0'.toNat)
      if next < 2 ^ bits then parseDigits bits next s else .error .PosOverflow
    else .error .InvalidDigit

/-- `from_str` of an unsigned integer with so many bits. -/
def parse (bits : ℕ) (s : Text) : Except IntErrorKind ℕ :=
  match s with
  | [] => .error .Empty
  | ['+'] => .error .InvalidDigit
  | '+' :: digits => parseDigits bits 0 digits
  | digits => parseDigits bits 0 digits

/-- Digits, which may have a plus sign in front, of a number with so many bits. -/
def IsNumber (bits : ℕ) (s : Text) (n : ℕ) : Prop :=
  ∃ digits, (s = digits ∨ s = '+' :: digits) ∧ digits ≠ [] ∧ (∀ c ∈ digits, c.isDigit) ∧
    n = value digits ∧ n < 2 ^ bits

theorem le_ofDigitChars (s : Text) (n : ℕ) : n ≤ Nat.ofDigitChars 10 s n := by
  rw [Nat.ofDigitChars_eq_ofDigitChars_zero]
  have hpow : 0 < 10 ^ s.length := Nat.pow_pos (by decide)
  have hn := Nat.le_mul_of_pos_left n hpow
  omega

theorem parseDigits_eq_ok_iff {bits n m : ℕ} {s : Text} (hn : n < 2 ^ bits) :
    parseDigits bits n s = .ok m ↔
      (∀ c ∈ s, c.isDigit) ∧ m = Nat.ofDigitChars 10 s n ∧ m < 2 ^ bits := by
  induction s generalizing n with
  | nil =>
    rw [parseDigits, Nat.ofDigitChars_nil, Except.ok.injEq]
    constructor
    · rintro rfl
      exact ⟨fun c hc => absurd hc List.not_mem_nil, rfl, hn⟩
    · exact fun h => h.2.1.symm
  | cons c s ih =>
    rw [parseDigits, Nat.ofDigitChars_cons, List.forall_mem_cons]
    by_cases hc : c.isDigit
    · rw [if_pos hc]
      by_cases hnext : 10 * n + (c.toNat - '0'.toNat) < 2 ^ bits
      · rw [if_pos hnext, ih hnext, and_iff_right hc]
      · rw [if_neg hnext]
        refine iff_of_false (fun h => by cases h) ?_
        rintro ⟨-, rfl, hlt⟩
        exact hnext (Nat.lt_of_le_of_lt (le_ofDigitChars s _) hlt)
    · rw [if_neg hc]
      exact iff_of_false (fun h => by cases h) fun h => hc h.1.1

theorem not_isDigit_plus : ¬('+').isDigit := by decide

theorem parse_eq_ok_iff {bits n : ℕ} {s : Text} : parse bits s = .ok n ↔ IsNumber bits s n := by
  have hpow : 0 < 2 ^ bits := Nat.pow_pos (by decide)
  unfold parse
  split
  · refine iff_of_false (fun h => by cases h) ?_
    rintro ⟨digits, h | h, hne, -⟩
    · exact hne h.symm
    · cases h
  · refine iff_of_false (fun h => by cases h) ?_
    rintro ⟨digits, rfl | h, hne, hdigits, -⟩
    · exact not_isDigit_plus (hdigits '+' (List.mem_singleton_self _))
    · exact hne (List.cons.inj h).2.symm
  · rename_i digits hne
    rw [parseDigits_eq_ok_iff hpow]
    constructor
    · rintro ⟨hdigits, hn, hlt⟩
      exact ⟨digits, .inr rfl, fun h => hne (by rw [h]), hdigits, hn, hlt⟩
    · rintro ⟨ds, h | h, -, hdigits, hn, hlt⟩
      · exact absurd (hdigits '+' (h ▸ List.mem_cons_self ..)) not_isDigit_plus
      · rw [(List.cons.inj h).2]
        exact ⟨hdigits, hn, hlt⟩
  · rename_i hnil hplus hcons
    rw [parseDigits_eq_ok_iff hpow]
    constructor
    · rintro ⟨hdigits, hn, hlt⟩
      exact ⟨s, .inl rfl, hnil, hdigits, hn, hlt⟩
    · rintro ⟨ds, rfl | rfl, -, hdigits, hn, hlt⟩
      · exact ⟨hdigits, hn, hlt⟩
      · exact absurd rfl (hcons ds)

end MoveTools.Decimal
