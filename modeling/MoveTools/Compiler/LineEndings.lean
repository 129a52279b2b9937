import MoveTools.Compiler.SourceMap

namespace MoveTools.Compiler.LineEndings

structure NewNormalized where
  chars : List Char
  prevWasCarriageReturn : Bool
  pos : ℕ
  sourceMap : FileOffsetMap

def NewNormalized.innerNext (it : NewNormalized) : Option Char × NewNormalized :=
  (it.chars.head?, { it with chars := it.chars.tail, pos := it.pos + 1 })

def PATTERN_LENGTH : ℕ := 2

def NewNormalized.next (it : NewNormalized) : Option Char × NewNormalized :=
  match it.innerNext with
  | (some c, it1) =>
    if c = '\n' ∧ it.prevWasCarriageReturn = true then
      let it2 := { it1 with
        sourceMap := it1.sourceMap.insertLayer (it1.pos - PATTERN_LENGTH) 1
        prevWasCarriageReturn := false }
      match it2.innerNext with
      | (some '\r', it3) => (some '\n', { it3 with prevWasCarriageReturn := true })
      | (any, it3) => (any, { it3 with prevWasCarriageReturn := false })
    else if c = '\r' then (some '\n', { it1 with prevWasCarriageReturn := true })
    else (some c, { it1 with prevWasCarriageReturn := false })
  | (none, it1) => (none, { it1 with prevWasCarriageReturn := false })

/-- `collect`: calls `next` until it returns `None`. Every other call takes a character off
the input, so as many calls as there are characters, and one more, are enough. -/
def collect : ℕ → NewNormalized → Text × FileOffsetMap
  | 0, it => ([], it.sourceMap)
  | fuel + 1, it =>
    match it.next with
    | (none, it') => ([], it'.sourceMap)
    | (some c, it') => (c :: (collect fuel it').1, (collect fuel it').2)

def normalize (s : Text) : Text × FileOffsetMap :=
  collect (s.length + 1) ⟨s, false, 0, {}⟩

/-- A source text read as characters, lone carriage returns and CRLF pairs. -/
inductive LineUnit where
  | crlf
  | cr
  | char (c : Char)
  deriving DecidableEq, Repr

namespace LineUnit

def source : LineUnit → Text
  | crlf => ['\r', '\n']
  | cr => ['\r']
  | char c => [c]

def target : LineUnit → Char
  | crlf => '\n'
  | cr => '\n'
  | char c => c

end LineUnit

def units : Text → List LineUnit
  | [] => []
  | '\r' :: '\n' :: s => .crlf :: units s
  | '\r' :: s => .cr :: units s
  | c :: s => .char c :: units s

def sourceOf (us : List LineUnit) : Text := us.flatMap LineUnit.source

def targetOf (us : List LineUnit) : Text := us.map LineUnit.target

@[simp] theorem sourceOf_cons (u : LineUnit) (us : List LineUnit) :
    sourceOf (u :: us) = u.source ++ sourceOf us := rfl

@[simp] theorem targetOf_cons (u : LineUnit) (us : List LineUnit) :
    targetOf (u :: us) = u.target :: targetOf us := rfl

theorem sourceOf_units (s : Text) : sourceOf (units s) = s := by
  fun_induction units s with
  | case1 => rfl
  | _ => simp_all [LineUnit.source]

/-- The character offsets of the CRLF pairs in a text that starts at offset `c`. -/
def crlfAt (c : ℕ) : List LineUnit → List ℕ
  | [] => []
  | .crlf :: us => c :: crlfAt (c + 2) us
  | _ :: us => crlfAt (c + 1) us

section
variable (fuel pos : ℕ) (m : FileOffsetMap) (s : Text)

/-- A line feed after a carriage return records a layer and takes no call of its own. -/
theorem collect_lf : collect (fuel + 1) ⟨'\n' :: s, true, pos + 1, m⟩ =
    collect (fuel + 1) ⟨s, false, pos + 2, m.insertLayer pos 1⟩ := by
  cases s with
  | nil => simp [collect, NewNormalized.next, NewNormalized.innerNext, PATTERN_LENGTH]
  | cons c s =>
    by_cases hc : c = '\r' <;>
      simp [collect, NewNormalized.next, NewNormalized.innerNext, PATTERN_LENGTH, hc]

/-- Without a line feed the remembered carriage return makes no difference. -/
theorem collect_forget (h : s.head? ≠ some '\n') :
    collect fuel ⟨s, true, pos, m⟩ = collect fuel ⟨s, false, pos, m⟩ := by
  cases fuel with
  | zero => rfl
  | succ fuel =>
    cases s with
    | nil => rfl
    | cons c s => simp_all [collect, NewNormalized.next, NewNormalized.innerNext]

theorem collect_cr : collect (fuel + 1) ⟨'\r' :: s, false, pos, m⟩ =
    ('\n' :: (collect fuel ⟨s, true, pos + 1, m⟩).1, (collect fuel ⟨s, true, pos + 1, m⟩).2) := by
  simp [collect, NewNormalized.next, NewNormalized.innerNext]

theorem collect_char {c : Char} (h : c ≠ '\r') : collect (fuel + 1) ⟨c :: s, false, pos, m⟩ =
    (c :: (collect fuel ⟨s, false, pos + 1, m⟩).1, (collect fuel ⟨s, false, pos + 1, m⟩).2) := by
  simp [collect, NewNormalized.next, NewNormalized.innerNext, h]

theorem collect_eq (h : s.length < fuel) : collect fuel ⟨s, false, pos, m⟩ =
    (targetOf (units s),
      { m with layers := m.layers ++ (crlfAt pos (units s)).map (⟨·, 1⟩) }) := by
  fun_induction units s generalizing fuel pos m with
  | case1 =>
    cases fuel with
    | zero => cases h
    | succ fuel => simp [collect, NewNormalized.next, NewNormalized.innerNext, targetOf, crlfAt]
  | case2 s ih =>
    match fuel, h with
    | fuel + 2, h =>
      rw [collect_cr, collect_lf, ih _ _ _ (by simp only [List.length_cons] at h; omega)]
      simp [targetOf, LineUnit.target, crlfAt]
  | case3 s hlf ih =>
    match fuel, h with
    | fuel + 1, h =>
      have hs : s.head? ≠ some '\n' := by
        intro hh
        cases s with
        | nil => cases hh
        | cons c s => exact hlf s (by simp_all)
      rw [collect_cr, collect_forget _ _ _ _ hs,
        ih _ _ _ (by simp only [List.length_cons] at h; omega)]
      simp [targetOf, LineUnit.target, crlfAt]
  | case4 c s _ hcr ih =>
    match fuel, h with
    | fuel + 1, h =>
      rw [collect_char _ _ _ _ hcr, ih _ _ _ (by simp only [List.length_cons] at h; omega)]
      simp [targetOf, LineUnit.target, crlfAt]

end

theorem normalize_eq (s : Text) : normalize s =
    (targetOf (units s), { layers := (crlfAt 0 (units s)).map (⟨·, 1⟩) }) := by
  simpa [normalize] using collect_eq (s.length + 1) 0 {} s (by omega)

theorem crlfAt_chars (c : ℕ) (s : Text) : crlfAt c (s.map LineUnit.char) = [] := by
  induction s generalizing c with
  | nil => rfl
  | cons d s ih => exact ih (c + 1)

theorem units_of_not_mem {s : Text} (h : '\r' ∉ s) : units s = s.map LineUnit.char := by
  fun_induction units s with
  | case1 => rfl
  | case2 => simp at h
  | case3 => simp at h
  | case4 c s _ _ ih =>
    rw [List.map_cons, ih fun hm => h (List.mem_cons_of_mem _ hm)]

theorem normalize_of_not_mem {s : Text} (h : '\r' ∉ s) : normalize s = (s, {}) := by
  rw [normalize_eq, units_of_not_mem h, crlfAt_chars]
  simp [targetOf, LineUnit.target, Function.comp_def]

/-- `s` read from character `i` of the normalised text on starts at this byte. -/
def origin (s : Text) (i : ℕ) : ℕ := Text.len (sourceOf ((units s).take i))

/-- The offset map leads every character of the normalised text back to the character it came
from (a CRLF pair to either of its bytes), and the end back to the end. -/
def KeepsOffsets (s : Text) : Prop :=
  let (n, map) := normalize s
  (∀ i < n.length, map.translatePos (Text.len (n.take i)) = origin s i ∨
    (units s)[i]? = some .crlf ∧ map.translatePos (Text.len (n.take i)) = origin s i + 1) ∧
  map.translatePos (Text.len n) = Text.len s

def extraBytes (us : List LineUnit) : ℕ := Text.len (sourceOf us) - (sourceOf us).length

/-- For the `k`-th CRLF pair: the characters before it have at least `k - 2` extra bytes, and
less than `k - 1` plus the width of the character just before the pair, if there is one. -/
def CompensatedBytes (us : List LineUnit) : Prop :=
  ∀ i, us[i]? = some .crlf →
    let k := (us.take i).count .crlf + 1
    k ≤ extraBytes (us.take i) + 2 ∧
      ∀ u, (us.take i).getLast? = some u → extraBytes (us.take i) + 2 ≤ k + u.target.utf8Size

theorem translatePos_ones (cs : List ℕ) (h : cs.Pairwise (· < ·)) (p : ℕ) :
    FileOffsetMap.translatePos { layers := cs.map (⟨·, 1⟩) } p =
      p + cs.countP (· ≤ p) := by
  induction cs with
  | nil => rfl
  | cons c cs ih =>
    obtain ⟨hc, hcs⟩ := List.pairwise_cons.mp h
    have ih := ih hcs
    change Layer.translate ⟨c, 1⟩
      (FileOffsetMap.translatePos { layers := cs.map (⟨·, 1⟩) } p) = _
    rw [ih, List.countP_cons]
    by_cases hp : c ≤ p
    · rw [Layer.translate_of_le (r := p + cs.countP (· ≤ p) + 1) (by simp; omega) (by push_cast; rfl)]
      simp [hp, add_assoc]
    · have hz : cs.countP (· ≤ p) = 0 := by
        rw [List.countP_eq_zero]
        intro d hd
        have := hc d hd
        simp only [decide_eq_true_eq]
        omega
      rw [hz, Layer.translate_of_lt (by simp; omega)]
      simp [hp]

theorem lt_countP_iff {cs : List ℕ} (h : cs.Pairwise (· < ·)) (k t : ℕ) :
    k < cs.countP (· ≤ t) ↔ ∃ x, cs[k]? = some x ∧ x ≤ t := by
  induction cs generalizing k with
  | nil => simp
  | cons c cs ih =>
    obtain ⟨hc, hcs⟩ := List.pairwise_cons.mp h
    rw [List.countP_cons]
    by_cases ht : c ≤ t
    · cases k with
      | zero => simp [ht]
      | succ k => simpa [ht] using ih hcs k
    · have hz : cs.countP (· ≤ t) = 0 := by
        rw [List.countP_eq_zero]
        intro d hd
        have := hc d hd
        simp only [decide_eq_true_eq]
        omega
      simp only [hz, ht, decide_false, Bool.false_eq_true, if_false, add_zero, not_lt_zero,
        false_iff, not_exists, not_and]
      intro x hx
      cases k with
      | zero => simp_all
      | succ k =>
        have := hc x (List.mem_of_getElem? (by simpa using hx))
        omega

theorem crlfAt_ge {us : List LineUnit} {c x : ℕ} (h : x ∈ crlfAt c us) : c ≤ x := by
  induction us generalizing c with
  | nil => simp [crlfAt] at h
  | cons u us ih =>
    cases u with
    | crlf =>
      rcases List.mem_cons.mp h with rfl | h
      · exact le_rfl
      · exact le_trans (by omega) (ih h)
    | cr => exact le_trans (by omega) (ih h)
    | char d => exact le_trans (by omega) (ih h)

theorem crlfAt_pairwise (us : List LineUnit) (c : ℕ) : (crlfAt c us).Pairwise (· < ·) := by
  induction us generalizing c with
  | nil => exact .nil
  | cons u us ih =>
    cases u with
    | crlf => exact .cons (fun x hx => by have := crlfAt_ge hx; omega) (ih _)
    | cr => exact ih _
    | char d => exact ih _

theorem crlfAt_getElem {us : List LineUnit} {i : ℕ} (h : us[i]? = some .crlf) (c : ℕ) :
    (crlfAt c us)[(us.take i).count .crlf]? = some (c + (sourceOf (us.take i)).length) := by
  induction us generalizing i c with
  | nil => simp at h
  | cons u us ih =>
    cases i with
    | zero =>
      cases Option.some.inj h
      rfl
    | succ i =>
      have ih := ih (i := i) (by simpa using h)
      cases u with
      | crlf =>
        simp only [crlfAt, List.take_succ_cons, List.count_cons_self, List.getElem?_cons_succ, ih,
          sourceOf_cons, LineUnit.source, List.length_append, List.length_cons, List.length_nil]
        congr 1
        omega
      | cr => simp [crlfAt, LineUnit.source, ih, add_assoc, add_comm]
      | char d => simp [crlfAt, LineUnit.source, ih, add_assoc, add_comm]

/-- Every layer is that of a CRLF pair. -/
theorem exists_crlf_of_lt {us : List LineUnit} {c k : ℕ} (h : k < (crlfAt c us).length) :
    ∃ i, us[i]? = some .crlf ∧ (us.take i).count .crlf = k := by
  induction us generalizing c k with
  | nil => simp [crlfAt] at h
  | cons u us ih =>
    cases u with
    | crlf =>
      cases k with
      | zero => exact ⟨0, rfl, rfl⟩
      | succ k =>
        obtain ⟨i, hi, hk⟩ := ih (by simpa [crlfAt] using h)
        exact ⟨i + 1, by simpa using hi, by simp [hk]⟩
    | cr =>
      obtain ⟨i, hi, hk⟩ := ih h
      exact ⟨i + 1, by simpa using hi, by simp [hk]⟩
    | char d =>
      obtain ⟨i, hi, hk⟩ := ih h
      exact ⟨i + 1, by simpa using hi, by simp [hk]⟩

theorem len_sourceOf (us : List LineUnit) :
    Text.len (sourceOf us) = Text.len (targetOf us) + us.count .crlf := by
  induction us with
  | nil => rfl
  | cons u us ih =>
    rw [sourceOf_cons, targetOf_cons, Text.len_append, Text.len_cons, ih, List.count_cons]
    have hr : '\r'.utf8Size = 1 := rfl
    have hn : '\n'.utf8Size = 1 := rfl
    cases u <;> simp [LineUnit.source, LineUnit.target, hr, hn] <;> omega

theorem translatePos_normalize (s : Text) (p : ℕ) :
    (normalize s).2.translatePos p = p + (crlfAt 0 (units s)).countP (· ≤ p) := by
  rw [normalize_eq]
  exact translatePos_ones _ (crlfAt_pairwise _ _) p

section
variable {us : List LineUnit} {i j : ℕ} {u : LineUnit}

theorem take_succ_of_getElem (h : us[i]? = some u) : us.take (i + 1) = us.take i ++ [u] := by
  simp [List.take_add_one, h]

theorem len_target_take_succ (h : us[i]? = some u) :
    Text.len (targetOf (us.take (i + 1))) =
      Text.len (targetOf (us.take i)) + u.target.utf8Size := by
  rw [take_succ_of_getElem h]
  simp [targetOf]

theorem len_target_take_mono (us : List LineUnit) (h : i ≤ j) :
    Text.len (targetOf (us.take i)) ≤ Text.len (targetOf (us.take j)) := by
  obtain ⟨r, hr⟩ := List.take_prefix_take_left h
  rw [← hr]
  simp [targetOf]

theorem count_take_succ (h : us[i]? = some u) :
    (us.take (i + 1)).count .crlf = (us.take i).count .crlf + if u = .crlf then 1 else 0 := by
  rw [take_succ_of_getElem h]
  simp [List.count_singleton]

theorem count_take_mono (us : List LineUnit) (h : i ≤ j) :
    (us.take i).count LineUnit.crlf ≤ (us.take j).count .crlf :=
  (List.take_prefix_take_left h).sublist.count_le _

theorem exists_last_crlf (h : 0 < (us.take i).count LineUnit.crlf) :
    ∃ j < i, us[j]? = some .crlf ∧ (us.take j).count .crlf + 1 = (us.take i).count .crlf := by
  induction i with
  | zero => simp at h
  | succ i ih =>
    cases hu : us[i]? with
    | none =>
      have hlen := List.getElem?_eq_none_iff.mp hu
      have he : us.take (i + 1) = us.take i := by
        rw [List.take_of_length_le hlen, List.take_of_length_le (by omega)]
      rw [he] at h ⊢
      obtain ⟨j, hj, h'⟩ := ih h
      exact ⟨j, by omega, h'⟩
    | some u =>
      rw [count_take_succ hu] at h ⊢
      by_cases hc : u = .crlf
      · subst hc
        exact ⟨i, by omega, hu, by simp⟩
      · rw [if_neg hc, add_zero] at h ⊢
        obtain ⟨j, hj, h'⟩ := ih h
        exact ⟨j, by omega, h'⟩

/-- The extra bytes before a CRLF pair are what its character offset lacks in bytes. -/
theorem length_add_extraBytes (us : List LineUnit) :
    (sourceOf us).length + extraBytes us = Text.len (targetOf us) + us.count .crlf := by
  rw [← len_sourceOf, extraBytes]
  have := Text.length_le_len (sourceOf us)
  omega

end

/-- The layers that a position of the normalised text has to cross: those of the pairs before it,
and possibly the one it stands for. -/
def CrossesPairs (us : List LineUnit) : Prop :=
  ∀ i ≤ us.length,
    (us.take i).count .crlf ≤ (crlfAt 0 us).countP (· ≤ Text.len (targetOf (us.take i))) ∧
      (crlfAt 0 us).countP (· ≤ Text.len (targetOf (us.take i))) ≤
        (us.take i).count .crlf + if us[i]? = some .crlf then 1 else 0

theorem keepsOffsets_iff_crossesPairs (s : Text) : KeepsOffsets s ↔ CrossesPairs (units s) := by
  have hn : (normalize s).1 = targetOf (units s) := by rw [normalize_eq]
  have hlen : (targetOf (units s)).length = (units s).length := by simp [targetOf]
  have htake : ∀ i, (targetOf (units s)).take i = targetOf ((units s).take i) := by
    intro i
    simp [targetOf]
  have hend : Text.len s = Text.len (targetOf (units s)) + (units s).count .crlf := by
    rw [← len_sourceOf, sourceOf_units]
  simp only [KeepsOffsets, hn, translatePos_normalize, htake, origin, len_sourceOf, hend, hlen]
  constructor
  · rintro ⟨hi, he⟩ i hile
    rcases Nat.lt_or_eq_of_le hile with hlt | rfl
    · rcases hi i hlt with h | ⟨hc, h⟩
      · constructor <;> [omega; (split <;> omega)]
      · rw [if_pos hc]
        omega
    · simp only [List.take_length]
      constructor <;> [omega; (split <;> omega)]
  · intro h
    constructor
    · intro i hlt
      have := h i hlt.le
      split at this
      · rename_i hc
        by_cases hx : (crlfAt 0 (units s)).countP (· ≤ Text.len (targetOf ((units s).take i))) =
            ((units s).take i).count .crlf
        · exact .inl (by rw [hx])
        · exact .inr ⟨hc, by omega⟩
      · exact .inl (by omega)
    · have := h (units s).length le_rfl
      simp only [List.take_length, List.getElem?_length] at this
      simp at this
      omega

theorem compensatedBytes_of_crossesPairs {us : List LineUnit} (h : CrossesPairs us) :
    CompensatedBytes us := by
  intro i hi
  have hlt : i < us.length := (List.getElem?_eq_some_iff.mp hi).1
  have hat := crlfAt_getElem hi 0
  rw [zero_add] at hat
  have hsrc := length_add_extraBytes (us.take i)
  have hpw := crlfAt_pairwise us 0
  constructor
  · -- at the character after the pair its layer has been crossed
    have hnext := (h (i + 1) hlt).1
    rw [count_take_succ hi, if_pos rfl, len_target_take_succ hi] at hnext
    obtain ⟨x, hx, hle⟩ := (lt_countP_iff hpw _ _).mp hnext
    cases hat.symm.trans hx
    have : LineUnit.crlf.target.utf8Size = 1 := rfl
    omega
  · -- at the character before the pair it has not
    intro u hu
    cases i with
    | zero => simp at hu
    | succ j =>
      obtain ⟨v, hv⟩ : ∃ v, us[j]? = some v := ⟨_, List.getElem?_eq_getElem (by omega)⟩
      have huv : v = u := by
        rw [take_succ_of_getElem hv] at hu
        simpa using hu
      subst huv
      have hprev := (h j (by omega)).2
      have hcount := count_take_succ hv
      have hlen := len_target_take_succ hv
      have hno : ¬ (sourceOf (us.take (j + 1))).length ≤
          Text.len (targetOf (us.take j)) := by
        intro hle
        have := (lt_countP_iff hpw _ _).mpr ⟨_, hat, hle⟩
        rw [hv] at hprev
        simp only [Option.some.injEq] at hprev
        omega
      omega

theorem crossesPairs_of_compensatedBytes {us : List LineUnit} (h : CompensatedBytes us) :
    CrossesPairs us := by
  intro i _
  have hpw := crlfAt_pairwise us 0
  constructor
  · rcases Nat.eq_zero_or_pos ((us.take i).count .crlf) with hz | hpos
    · omega
    · obtain ⟨j, hji, hj, hk⟩ := exists_last_crlf hpos
      have hat := crlfAt_getElem hj 0
      have hsrc := length_add_extraBytes (us.take j)
      have hlen := len_target_take_succ hj
      have hmono := len_target_take_mono us (show j + 1 ≤ i by omega)
      have : LineUnit.crlf.target.utf8Size = 1 := rfl
      have := (h j hj).1
      have hlt := (lt_countP_iff hpw _ _).mpr ⟨_, hat, show _ ≤ Text.len (targetOf (us.take i)) by
        omega⟩
      omega
  · by_contra hgt
    obtain ⟨x, hx, hle⟩ := (lt_countP_iff hpw _ _).mp (not_le.mp hgt)
    obtain ⟨j, hj, hk⟩ := exists_crlf_of_lt (List.getElem?_eq_some_iff.mp hx).1
    have hat := crlfAt_getElem hj 0
    rw [hk] at hat
    cases hat.symm.trans hx
    -- the pair of that layer lies after unit `i`
    have hij : i < j := by
      by_contra hji
      rcases Nat.lt_or_eq_of_le (not_lt.mp hji) with hlt' | rfl
      · have hmono := count_take_mono us (show j + 1 ≤ i by omega)
        rw [count_take_succ hj, if_pos rfl] at hmono
        omega
      · rw [if_pos hj] at hk
        omega
    cases j with
    | zero => omega
    | succ j =>
      have hlt' : j + 1 < us.length := (List.getElem?_eq_some_iff.mp hj).1
      obtain ⟨v, hv⟩ : ∃ v, us[j]? = some v := ⟨_, List.getElem?_eq_getElem (by omega)⟩
      have hb := (h (j + 1) hj).2 v (by
        rw [take_succ_of_getElem hv]
        simp)
      have hsrc := length_add_extraBytes (us.take (j + 1))
      have hlen := len_target_take_succ hv
      have hmono := len_target_take_mono us (show i ≤ j by omega)
      change extraBytes (us.take (j + 1)) + 2 ≤ (us.take (j + 1)).count .crlf + 1 + _ at hb
      omega

/-- Every layer is one character early or late by the pairs before it, and the bytes of wide
characters before it are not counted; only where the two cancel are offsets kept. -/
theorem keepsOffsets_iff (s : Text) : KeepsOffsets s ↔ CompensatedBytes (units s) :=
  (keepsOffsets_iff_crossesPairs s).trans
    ⟨compensatedBytes_of_crossesPairs, crossesPairs_of_compensatedBytes⟩

/-- Three Windows line endings are enough: the end of this text is led back to byte 5 of 6. -/
theorem three_crlf_offset : ¬ KeepsOffsets "\r\n\r\n\r\n".toList := by
  unfold KeepsOffsets
  decide

end MoveTools.Compiler.LineEndings
