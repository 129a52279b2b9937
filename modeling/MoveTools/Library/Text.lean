import Mathlib.Data.List.Basic
import Mathlib.Data.List.DropRight
import Mathlib.Algebra.BigOperators.Group.List.Basic

namespace MoveTools

/-- A UTF-8 string as its scalar values. Positions in it are byte offsets. -/
abbrev Text := List Char

namespace Text

/-- `str::len`: the number of UTF-8 bytes. -/
def len : Text → ℕ
  | [] => 0
  | c :: s => c.utf8Size + len s

@[simp] theorem len_nil : len [] = 0 := rfl

@[simp] theorem len_cons (c : Char) (s : Text) : len (c :: s) = c.utf8Size + len s := rfl

@[simp] theorem len_append (s t : Text) : len (s ++ t) = len s + len t := by
  induction s with
  | nil => simp
  | cons c s ih =>
    rw [List.cons_append, len_cons, len_cons, ih]
    omega

theorem length_le_len (s : Text) : s.length ≤ len s := by
  induction s with
  | nil => simp
  | cons c s ih =>
    have := c.utf8Size_pos
    simp only [List.length_cons, len_cons]
    omega

/-- `str::find` followed by the two slices it delimits: the text before the first
occurrence of `pat` and the text after it. The position found is `len` of the former. -/
def find (pat : Text) : Text → Option (Text × Text)
  | [] => if pat = [] then some ([], []) else none
  | c :: s =>
    if pat.isPrefixOf (c :: s) then some ([], (c :: s).drop pat.length)
    else (find pat s).map fun x => (c :: x.1, x.2)

theorem find_eq_some {pat s a b : Text} (h : find pat s = some (a, b)) : s = a ++ pat ++ b := by
  induction s generalizing a b with
  | nil =>
    unfold find at h
    split at h
    · simp_all
    · cases h
  | cons c s ih =>
    unfold find at h
    split at h
    · rename_i hp
      obtain ⟨t, ht⟩ := List.isPrefixOf_iff_prefix.mp hp
      cases h
      simp [← ht]
    · obtain ⟨⟨a', b'⟩, hf, he⟩ := Option.map_eq_some_iff.mp h
      cases he
      simp [ih hf]

theorem find_eq_none_iff {pat s : Text} : find pat s = none ↔ ¬ pat <:+: s := by
  induction s with
  | nil => simp [find, List.infix_nil]
  | cons c s ih =>
    rw [find, List.infix_cons_iff, not_or, ← ih, ← List.isPrefixOf_iff_prefix]
    split
    · simp_all
    · simp_all

/-- `str::replace`: every occurrence of `pat`, from left to right and without overlaps.
`skip` counts the characters of the last occurrence that are still to be passed. -/
def replaceFrom (pat rep : Text) : ℕ → Text → Text
  | _, [] => []
  | skip + 1, _ :: s => replaceFrom pat rep skip s
  | 0, c :: s =>
    if pat.isPrefixOf (c :: s) then rep ++ replaceFrom pat rep (pat.length - 1) s
    else c :: replaceFrom pat rep 0 s

def replace (s pat rep : Text) : Text := replaceFrom pat rep 0 s

theorem replaceFrom_skip (pat rep a s : Text) :
    replaceFrom pat rep a.length (a ++ s) = replaceFrom pat rep 0 s := by
  induction a with
  | nil => rfl
  | cons c a ih => exact ih

theorem replaceFrom_pat {pat : Text} (hpat : pat ≠ []) (rep s : Text) :
    replaceFrom pat rep 0 (pat ++ s) = rep ++ replaceFrom pat rep 0 s := by
  cases pat with
  | nil => exact absurd rfl hpat
  | cons c p =>
    have hpre : (c :: p).isPrefixOf (c :: (p ++ s)) = true :=
      List.isPrefixOf_iff_prefix.mpr (List.prefix_append (c :: p) s)
    rw [List.cons_append, replaceFrom, if_pos hpre, List.length_cons, Nat.add_sub_cancel,
      replaceFrom_skip]

theorem replaceFrom_cons_of_not_prefix {pat rep s : Text} {c : Char}
    (h : ¬ pat <+: c :: s) : replaceFrom pat rep 0 (c :: s) = c :: replaceFrom pat rep 0 s := by
  rw [replaceFrom, if_neg (by rwa [List.isPrefixOf_iff_prefix])]

theorem replace_cons_of_not_mem {pat rep s : Text} {c : Char} (hpat : pat ≠ []) (hc : c ∉ pat) :
    replace (c :: s) pat rep = c :: replace s pat rep := by
  apply replaceFrom_cons_of_not_prefix
  rintro ⟨b, hb⟩
  cases pat with
  | nil => exact hpat rfl
  | cons d p =>
    apply hc
    rw [← (List.cons.inj hb).1]
    exact List.mem_cons_self

theorem replace_of_absent {pat rep s : Text} (h : ¬ pat <:+: s) : replace s pat rep = s := by
  induction s with
  | nil => rfl
  | cons c s ih =>
    rw [List.infix_cons_iff, not_or] at h
    rw [replace, replaceFrom_cons_of_not_prefix h.1]
    exact congrArg (c :: ·) (ih h.2)

theorem infix_replace {pat rep s : Text} (hpat : pat ≠ []) (h : pat <:+: s) :
    rep <:+: replace s pat rep := by
  induction s with
  | nil => exact absurd (List.infix_nil.mp h) hpat
  | cons c s ih =>
    by_cases hp : pat <+: c :: s
    · obtain ⟨b, hb⟩ := hp
      rw [replace, ← hb, replaceFrom_pat hpat]
      exact (List.prefix_append _ _).isInfix
    · rw [replace, replaceFrom_cons_of_not_prefix hp]
      exact (ih ((List.infix_cons_iff.mp h).resolve_left hp)).trans (List.suffix_cons _ _).isInfix

theorem isAlphanum_iff {c : Char} : c.isAlphanum ↔
    (0x41 ≤ c.toNat ∧ c.toNat ≤ 0x5a ∨ 0x61 ≤ c.toNat ∧ c.toNat ≤ 0x7a) ∨
      0x30 ≤ c.toNat ∧ c.toNat ≤ 0x39 := by
  change ((decide ('A'.val ≤ c.val ∧ c.val ≤ 'Z'.val) ||
    decide ('a'.val ≤ c.val) && decide (c.val ≤ 'z'.val)) ||
    decide ('0'.val ≤ c.val) && decide (c.val ≤ '9'.val)) = true ↔ _
  simp only [Bool.or_eq_true, Bool.and_eq_true, decide_eq_true_eq, UInt32.le_iff_toNat_le,
    Char.reduceVal, UInt32.reduceToNat, Char.toNat_val]

/-- The two parts of a text, cut at a byte offset that is a character boundary. -/
def splitBytes : ℕ → Text → Option (Text × Text)
  | 0, s => some ([], s)
  | _ + 1, [] => none
  | n + 1, c :: s =>
    if c.utf8Size ≤ n + 1 then (splitBytes (n + 1 - c.utf8Size) s).map fun x => (c :: x.1, x.2)
    else none

/-- `str::is_char_boundary`. -/
def isCharBoundary (s : Text) (n : ℕ) : Bool := (splitBytes n s).isSome

/-- `str::get` with a range. -/
def slice (s : Text) (start stop : ℕ) : Option Text :=
  if start ≤ stop then do
    let (_, rest) ← splitBytes start s
    let (x, _) ← splitBytes (stop - start) rest
    pure x
  else none

theorem len_eq_zero {s : Text} : len s = 0 ↔ s = [] := by
  constructor
  · intro h
    have := length_le_len s
    exact List.length_eq_zero_iff.mp (by omega)
  · rintro rfl
    rfl

theorem splitBytes_eq_some {n : ℕ} {s a b : Text} :
    splitBytes n s = some (a, b) ↔ s = a ++ b ∧ len a = n := by
  induction s generalizing n a with
  | nil =>
    cases n with
    | zero =>
      simp only [splitBytes, Option.some.injEq, Prod.mk.injEq, List.nil_eq, List.append_eq_nil_iff,
        len_eq_zero]
      tauto
    | succ n =>
      simp only [splitBytes, reduceCtorEq, false_iff, not_and]
      intro h
      simp [(List.append_eq_nil_iff.mp h.symm).1]
  | cons c s ih =>
    have hpos := c.utf8Size_pos
    cases n with
    | zero =>
      rw [splitBytes, len_eq_zero, Option.some.injEq, Prod.mk.injEq]
      constructor
      · rintro ⟨rfl, rfl⟩
        simp
      · rintro ⟨h, rfl⟩
        exact ⟨rfl, h⟩
    -- a character that is longer than what is to be split off fails
    | succ n =>
      rw [splitBytes]
      constructor
      · intro h
        obtain ⟨hle, h⟩ := Option.ite_none_right_eq_some.mp h
        obtain ⟨⟨a', b'⟩, hsplit, heq⟩ := Option.map_eq_some_iff.mp h
        cases heq
        obtain ⟨rfl, hlen⟩ := ih.mp hsplit
        have hcons : len (c :: a') = n + 1 := by
          rw [len_cons]
          omega
        exact ⟨rfl, hcons⟩
      · rintro ⟨h, hlen⟩
        cases a with
        | nil => simp at hlen
        | cons d a =>
          obtain ⟨rfl, rfl⟩ := List.cons.inj h
          rw [len_cons] at hlen
          rw [if_pos (by omega), ih.mpr ⟨rfl, by omega⟩]
          rfl

theorem isCharBoundary_iff {s : Text} {n : ℕ} :
    isCharBoundary s n ↔ ∃ a b, s = a ++ b ∧ len a = n := by
  simp only [isCharBoundary, Option.isSome_iff_exists, Prod.exists, splitBytes_eq_some]

theorem le_len_of_isCharBoundary {s : Text} {n : ℕ} (h : isCharBoundary s n) : n ≤ len s := by
  obtain ⟨a, b, rfl, rfl⟩ := isCharBoundary_iff.mp h
  rw [len_append]
  exact Nat.le_add_right _ _

theorem beginning_of_len_le {a b c d : Text} (h : a ++ b = c ++ d) (hlen : len a ≤ len c) :
    a <+: c := by
  rcases List.prefix_or_prefix_of_prefix ⟨b, h⟩ ⟨d, rfl⟩ with hac | ⟨e, rfl⟩
  · exact hac
  · rw [len_append] at hlen
    have he : e = [] := len_eq_zero.mp (by omega)
    simp [he]

theorem slice_of_boundaries {s : Text} {start stop : ℕ} (hstart : isCharBoundary s start)
    (hstop : isCharBoundary s stop) (h : start ≤ stop) : ∃ x, slice s start stop = some x := by
  obtain ⟨a, b, hab, ha⟩ := isCharBoundary_iff.mp hstart
  obtain ⟨c, d, hcd, hc⟩ := isCharBoundary_iff.mp hstop
  obtain ⟨x, rfl⟩ := beginning_of_len_le (hab.symm.trans hcd) (by omega)
  have hb : b = x ++ d := by
    rw [hab, List.append_assoc] at hcd
    exact List.append_cancel_left hcd
  rw [len_append] at hc
  have hx : len x = stop - start := by omega
  refine ⟨x, ?_⟩
  rw [slice, if_pos h, splitBytes_eq_some.mpr ⟨hab, ha⟩]
  simp [splitBytes_eq_some.mpr ⟨hb, hx⟩]

/-- A text is cut in one way into parts of given numbers of bytes. -/
theorem append_inj_of_len {a b x y : Text} (h : a ++ b = x ++ y) (hlen : len a = len x) :
    a = x ∧ b = y := by
  have hab : splitBytes (len a) (a ++ b) = some (a, b) := splitBytes_eq_some.mpr ⟨rfl, rfl⟩
  have hxy : splitBytes (len a) (a ++ b) = some (x, y) := splitBytes_eq_some.mpr ⟨h, hlen.symm⟩
  rw [hab] at hxy
  exact Prod.mk.inj (Option.some.inj hxy)

theorem len_lt_of_infix {a s : Text} (h : a <:+: s) (hne : s ≠ a) : len a < len s := by
  obtain ⟨x, y, rfl⟩ := h
  simp only [len_append]
  by_contra hlen
  have hx : x = [] := len_eq_zero.mp (by omega)
  have hy : y = [] := len_eq_zero.mp (by omega)
  simp [hx, hy] at hne

/-- A text is read as occurrences of a pattern, from left to right, and other characters. -/
theorem pattern_induction {pat : Text} (hpat : pat ≠ []) {motive : Text → Prop} (nil : motive [])
    (occurrence : ∀ s, motive s → motive (pat ++ s))
    (other : ∀ c s, ¬ pat <+: c :: s → motive s → motive (c :: s)) (s : Text) : motive s := by
  induction hn : s.length using Nat.strongRecOn generalizing s with
  | _ n ih =>
    subst hn
    cases s with
    | nil => exact nil
    | cons c s =>
      by_cases hp : pat <+: c :: s
      · obtain ⟨b, hb⟩ := hp
        have hshort : b.length < (c :: s).length := by
          rw [← hb, List.length_append]
          have := List.length_pos_iff.mpr hpat
          omega
        rw [← hb]
        exact occurrence b (ih _ hshort b rfl)
      · exact other c s hp (ih _ (Nat.lt_succ_self _) s rfl)

theorem len_le_len_replace {pat rep : Text} (hpat : pat ≠ []) (hlen : len pat ≤ len rep) (s : Text) :
    len s ≤ len (replace s pat rep) := by
  induction s using pattern_induction hpat with
  | nil => exact Nat.zero_le _
  | occurrence s ih =>
    rw [replace, replaceFrom_pat hpat, len_append, len_append]
    exact Nat.add_le_add hlen ih
  | other c s hp ih =>
    rw [replace, replaceFrom_cons_of_not_prefix hp]
    exact Nat.add_le_add_left ih _

theorem len_add_le_len_replace {pat rep s : Text} (hpat : pat ≠ []) (hlen : len pat ≤ len rep)
    (h : pat <:+: s) : len s + len rep ≤ len (replace s pat rep) + len pat := by
  induction s using pattern_induction hpat with
  | nil => exact absurd (List.infix_nil.mp h) hpat
  | occurrence s ih =>
    rw [replace, replaceFrom_pat hpat, len_append, len_append]
    have hrest : len s ≤ len (replaceFrom pat rep 0 s) := len_le_len_replace hpat hlen s
    omega
  | other c s hp ih =>
    rw [replace, replaceFrom_cons_of_not_prefix hp, len_cons, len_cons]
    have hrest : len s + len rep ≤ len (replaceFrom pat rep 0 s) + len pat :=
      ih ((List.infix_cons_iff.mp h).resolve_left hp)
    omega

/-- No occurrence of `pat` touches `w`, wherever `w` stands. -/
def Avoids (pat w : Text) : Prop := ∀ a b, pat <:+: a ++ w ++ b → pat <:+: a ∨ pat <:+: b

theorem replace_first {pat s : Text} (hpat : pat ≠ []) (rep : Text) (h : pat <:+: s) :
    ∃ a b, s = a ++ pat ++ b ∧ ¬ pat <:+: a ∧ replace s pat rep = a ++ rep ++ replace b pat rep := by
  induction s with
  | nil => exact absurd (List.infix_nil.mp h) hpat
  | cons c s ih =>
    by_cases hp : pat <+: c :: s
    · obtain ⟨b, hb⟩ := hp
      refine ⟨[], b, hb.symm, fun hnil => hpat (List.infix_nil.mp hnil), ?_⟩
      rw [← hb, replace, replaceFrom_pat hpat]
      rfl
    · obtain ⟨a, b, rfl, ha, hrep⟩ := ih ((List.infix_cons_iff.mp h).resolve_left hp)
      refine ⟨c :: a, b, rfl, ?_, ?_⟩
      · rw [List.infix_cons_iff, not_or]
        refine ⟨fun hpre => hp ?_, ha⟩
        exact hpre.trans ⟨pat ++ b, by simp⟩
      · rw [replace, replaceFrom_cons_of_not_prefix hp]
        exact congrArg (c :: ·) hrep

/-- What is put in place of a pattern brings no occurrence of a text that it avoids. -/
theorem infix_of_infix_replace {pat rep q : Text} (hpat : pat ≠ []) (hrep : Avoids q rep) {s : Text}
    (h : q <:+: replace s pat rep) : q <:+: s := by
  induction hn : s.length using Nat.strongRecOn generalizing s with
  | _ n ih =>
    subst hn
    by_cases hs : pat <:+: s
    · obtain ⟨a, b, rfl, _, heq⟩ := replace_first hpat rep hs
      rw [heq] at h
      rcases hrep _ _ h with ha | hb
      · exact ha.trans ⟨[], pat ++ b, by simp⟩
      · have hshort : b.length < (a ++ pat ++ b).length := by
          have := List.length_pos_iff.mpr hpat
          simp only [List.length_append]
          omega
        exact (ih _ hshort hb rfl).trans ⟨a ++ pat, [], by simp⟩
    · rwa [replace_of_absent hs] at h

theorem not_infix_replace {pat rep : Text} (hpat : pat ≠ []) (hrep : Avoids pat rep) (s : Text) :
    ¬ pat <:+: replace s pat rep := by
  induction hn : s.length using Nat.strongRecOn generalizing s with
  | _ n ih =>
    subst hn
    by_cases hs : pat <:+: s
    · obtain ⟨a, b, rfl, ha, heq⟩ := replace_first hpat rep hs
      have hshort : b.length < (a ++ pat ++ b).length := by
        have := List.length_pos_iff.mpr hpat
        simp only [List.length_append]
        omega
      rw [heq]
      exact fun hocc => (hrep _ _ hocc).elim ha (ih _ hshort b rfl)
    · rwa [replace_of_absent hs]

theorem rtakeWhile_append_cons {p : Char → Bool} {a b : Text} {c : Char} (hc : p c = false)
    (hb : ∀ d ∈ b, p d) :
    (a ++ c :: b).rtakeWhile p = b ∧ (a ++ c :: b).rdropWhile p = a ++ [c] := by
  have htake : (a ++ c :: b).rtakeWhile p = b := by
    have hrev : ∀ d ∈ b.reverse, p d := fun d hd => hb d (List.mem_reverse.mp hd)
    unfold List.rtakeWhile
    rw [List.reverse_append, List.reverse_cons, List.append_assoc,
      List.takeWhile_append_of_pos hrev]
    simp [hc]
  refine ⟨htake, ?_⟩
  have happend : (a ++ c :: b).rdropWhile p ++ (a ++ c :: b).rtakeWhile p = a ++ c :: b :=
    List.rdropWhile_append_rtakeWhile
  rw [htake] at happend
  have hsplit : a ++ c :: b = (a ++ [c]) ++ b := by
    rw [List.append_assoc, List.singleton_append]
  exact List.append_cancel_right (happend.trans hsplit)

end Text
end MoveTools
