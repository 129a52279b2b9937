import Mathlib.Algebra.Order.BigOperators.Group.List
import Mathlib.Data.List.Chain
import MoveTools.Compat.Mutator

namespace MoveTools.Compat

def IsizeFits (n : ℤ) : Prop := -2 ^ 63 ≤ n ∧ n < 2 ^ 63

instance (n : ℤ) : Decidable (IsizeFits n) := inferInstanceAs (Decidable (_ ∧ _))

/-- `as isize` -/
def asIsize (n : ℤ) : ℤ := n.bmod (2 ^ 64)

/-- `as usize` -/
def asUsize (n : ℤ) : ℕ := (n % 2 ^ 64).toNat

/-- The result of an operation on `isize`. If it does not fit, a build with overflow checks panics
and any other build wraps around. -/
def isizeResult (checks : Bool) (n : ℤ) : Option ℤ :=
  if checks ∧ ¬IsizeFits n then none else some (asIsize n)

namespace Diff

/-- `offset_diff` -/
def offsetDiffIsize (checks : Bool) (d : Diff) : Option ℤ :=
  let originLen := asIsize (d.sourceRange.stop - d.sourceRange.start : ℕ)
  isizeResult checks (asIsize d.value.length - originLen)

def startIsize (checks : Bool) (d : Diff) (offsetDiff : ℤ) : Option ℕ :=
  (isizeResult checks (asIsize d.sourceRange.start + offsetDiff)).map asUsize

def rangeIsize (checks : Bool) (d : Diff) (offsetDiff : ℤ) : Option Range := do
  let start ← d.startIsize checks offsetDiff
  let stop ← (isizeResult checks (asIsize d.sourceRange.stop + offsetDiff)).map asUsize
  return ⟨start, stop⟩

end Diff

namespace Mutator

def writeIsize (checks : Bool) (buffer : List UInt8) (offsetDiff : ℤ) (mutation : Diff)
    (mutationDiffLen : ℤ) : Option (List UInt8) :=
  if mutationDiffLen = 0 then do
    let range ← mutation.rangeIsize checks offsetDiff
    copyFromSlice buffer range mutation.value
  else if mutationDiffLen > 0 then do
    let start ← mutation.startIsize checks offsetDiff
    let inserted := mutationDiffLen.natAbs
    let buffer ← insertEach (mutation.value.take inserted) start buffer
    let range ← mutation.rangeIsize checks offsetDiff
    copyFromSlice buffer ⟨range.start + inserted, range.stop + inserted⟩
      (mutation.value.drop inserted)
  else do
    let start ← mutation.startIsize checks offsetDiff
    let buffer ← removeTimes mutationDiffLen.natAbs start buffer
    copyFromSlice buffer ⟨start, start + mutation.len⟩ mutation.value

/-- `apply`, with the arithmetic of the machine. -/
def applyIsize (checks : Bool) (originLen : ℕ) (s : List UInt8 × ℤ) (mutation : Diff) :
    Option (List UInt8 × ℤ) := do
  let mutationDiffLen ← mutation.offsetDiffIsize checks
  if mutation.sourceRange.start ≥ originLen then some (s.1 ++ mutation.value, s.2)
  else do
    let buffer ← writeIsize checks s.1 s.2 mutation mutationDiffLen
    let offsetDiff ← isizeResult checks (s.2 + mutationDiffLen)
    return (buffer, offsetDiff)

/-- `sort_by` is stable. -/
def sorted (m : Mutator) : List Diff :=
  m.diff.mergeSort fun a b => a.sourceRange.start ≤ b.sourceRange.start

def mutateIsize (checks : Bool) (m : Mutator) (buffer : List UInt8) : Option (List UInt8) :=
  (m.sorted.foldlM (applyIsize checks buffer.length) (buffer, 0)).map Prod.fst

end Mutator

/-- What becomes of a place of the buffer: the values that are put there, in the order of the
diffs, and the byte itself unless it lies in one of the ranges. -/
def replacedAt (diffs : List Diff) (buffer : List UInt8) (i : ℕ) : List UInt8 :=
  (diffs.filter fun d => d.sourceRange.start = i).flatMap Diff.value ++
    if ∃ d ∈ diffs, d.sourceRange.start ≤ i ∧ i < d.sourceRange.stop then [] else buffer[i]?.toList

/-- The values of the diffs that start behind the buffer. -/
def appended (diffs : List Diff) (buffer : List UInt8) : List UInt8 :=
  (diffs.filter fun d => buffer.length ≤ d.sourceRange.start).flatMap Diff.value

/-- Every place of the buffer is replaced on its own, whatever happens at the others. -/
def replaced (m : Mutator) (buffer : List UInt8) : List UInt8 :=
  (List.range buffer.length).flatMap (replacedAt m.diff buffer) ++ appended m.sorted buffer

/-- The ranges of the diffs are disjoint. Those that start in the buffer lie in it. -/
structure DisjointRanges (m : Mutator) (buffer : List UInt8) : Prop where
  start_le_stop : ∀ d ∈ m.diff, d.sourceRange.start ≤ d.sourceRange.stop
  inside : ∀ d ∈ m.diff, d.sourceRange.start < buffer.length → d.sourceRange.stop ≤ buffer.length
  separate : m.sorted.IsChain fun a b => a.sourceRange.stop ≤ b.sourceRange.start

section
variable {n : ℤ} {checks : Bool}

theorem asIsize_of_fits (h : IsizeFits n) : asIsize n = n := by
  unfold IsizeFits at h
  exact Int.bmod_eq_of_le (by norm_num; omega) (by norm_num; omega)

theorem isizeResult_of_fits (h : IsizeFits n) : isizeResult checks n = some n := by
  simp [isizeResult, h, asIsize_of_fits h]

theorem asUsize_of_fits (h : IsizeFits n) (hn : 0 ≤ n) : asUsize n = n.toNat := by
  unfold IsizeFits at h
  rw [asUsize, Int.emod_eq_of_lt hn (by omega)]

variable {d : Diff} {offset : ℤ} {originLen : ℕ} {buffer : List UInt8}

/-- The lengths and places at which a diff inside the buffer is carried out are those of vectors. -/
structure InRange (d : Diff) (offset : ℤ) : Prop where
  start_le_stop : d.sourceRange.start ≤ d.sourceRange.stop
  stop_lt : d.sourceRange.stop < 2 ^ 63
  value_lt : d.value.length < 2 ^ 63
  start_nonneg : 0 ≤ d.sourceRange.start + offset
  stop_fits : d.sourceRange.stop + offset < 2 ^ 63
  offset_fits : IsizeFits (offset + d.offsetDiff)

theorem InRange.offsetDiff_eq (h : InRange d offset) :
    d.offsetDiffIsize checks = some d.offsetDiff := by
  have h1 := h.start_le_stop
  have h2 := h.stop_lt
  have h3 := h.value_lt
  have hvalue : IsizeFits d.value.length := ⟨by omega, by omega⟩
  have horigin : IsizeFits ((d.sourceRange.stop - d.sourceRange.start : ℕ) : ℤ) :=
    ⟨by omega, by omega⟩
  rw [Diff.offsetDiffIsize, asIsize_of_fits hvalue, asIsize_of_fits horigin,
    isizeResult_of_fits ⟨by omega, by omega⟩]
  rfl

theorem InRange.start_eq (h : InRange d offset) :
    d.startIsize checks offset = some (d.startWithDiff offset) := by
  have h1 := h.start_le_stop
  have h2 := h.stop_lt
  have h4 := h.start_nonneg
  have h5 := h.stop_fits
  have hsum : IsizeFits (d.sourceRange.start + offset) := ⟨by omega, by omega⟩
  rw [Diff.startIsize, asIsize_of_fits ⟨by omega, by omega⟩, isizeResult_of_fits hsum,
    Option.map_some, asUsize_of_fits hsum h4]
  rfl

theorem InRange.range_eq (h : InRange d offset) :
    d.rangeIsize checks offset = some (d.sourceRangeWithDiff offset) := by
  have h1 := h.start_le_stop
  have h2 := h.stop_lt
  have h4 := h.start_nonneg
  have h5 := h.stop_fits
  have hsum : IsizeFits (d.sourceRange.stop + offset) := ⟨by omega, by omega⟩
  rw [Diff.rangeIsize, h.start_eq, asIsize_of_fits ⟨by omega, by omega⟩, isizeResult_of_fits hsum,
    Option.map_some, asUsize_of_fits hsum (by omega)]
  rfl

theorem applyIsize_eq (h : InRange d offset) (hin : d.sourceRange.start < originLen) :
    Mutator.applyIsize checks originLen (buffer, offset) d =
      Mutator.apply originLen (buffer, offset) d := by
  have hin : ¬d.sourceRange.start ≥ originLen := not_le.mpr hin
  simp only [Mutator.applyIsize, Mutator.apply, Mutator.writeIsize, h.offsetDiff_eq, h.start_eq,
    h.range_eq, isizeResult_of_fits h.offset_fits, hin, if_false, Option.bind_eq_bind,
    Option.bind_some, Option.map_eq_bind]
  rfl

end

/-- The diffs follow each other from `s` on. -/
def Follow (s : ℕ) : List Diff → Prop
  | [] => True
  | d :: ds =>
    s ≤ d.sourceRange.start ∧ d.sourceRange.start ≤ d.sourceRange.stop ∧
      Follow d.sourceRange.stop ds

theorem Follow.le_start {s : ℕ} {ds : List Diff} (h : Follow s ds) {d : Diff} (hd : d ∈ ds) :
    s ≤ d.sourceRange.start := by
  induction ds generalizing s with
  | nil => cases hd
  | cons d' ds ih =>
    obtain ⟨hs, hle, hrest⟩ := h
    rcases List.mem_cons.mp hd with rfl | hd
    · exact hs
    · exact (hs.trans hle).trans (ih hrest hd)

def remaining (ds : List Diff) (buffer : List UInt8) (s : ℕ) : List UInt8 :=
  (List.range' s (buffer.length - s)).flatMap (replacedAt ds buffer) ++ appended ds buffer

section
variable {buffer : List UInt8} {s t : ℕ} {d : Diff} {ds : List Diff}

theorem flatMap_getElem? (hst : s ≤ t) (ht : t ≤ buffer.length) :
    (List.range' s (t - s)).flatMap (fun i => buffer[i]?.toList) = (buffer.take t).drop s := by
  obtain ⟨n, rfl⟩ := Nat.exists_eq_add_of_le hst
  rw [Nat.add_sub_cancel_left]
  induction n generalizing s with
  | zero => simp
  | succ n ih =>
    have hs : s < (buffer.take (s + (n + 1))).length := by
      rw [List.length_take]
      omega
    rw [List.range'_succ, List.flatMap_cons, List.drop_eq_getElem_cons hs, List.getElem_take,
      List.getElem?_eq_getElem (by omega)]
    have hrest := ih (s := s + 1) (by omega) (by omega)
    rw [hrest, show s + 1 + n = s + (n + 1) by omega]
    rfl

theorem replacedAt_of_lt {i : ℕ} (h : ∀ d ∈ ds, i < d.sourceRange.start) :
    replacedAt ds buffer i = buffer[i]?.toList := by
  have hnone : ds.filter (fun d => d.sourceRange.start = i) = [] := by
    apply List.filter_eq_nil_iff.mpr
    intro d hd
    have := h d hd
    simp only [decide_eq_true_eq]
    omega
  rw [replacedAt, hnone, if_neg]
  · rfl
  · intro hcovered
    obtain ⟨d, hd, hstart, _⟩ := hcovered
    have := h d hd
    omega

theorem remaining_of_outside (hs : s ≤ buffer.length)
    (h : ∀ d ∈ ds, buffer.length ≤ d.sourceRange.start) :
    remaining ds buffer s = buffer.drop s ++ ds.flatMap Diff.value := by
  have hkept : (List.range' s (buffer.length - s)).flatMap (replacedAt ds buffer) =
      (List.range' s (buffer.length - s)).flatMap fun i => buffer[i]?.toList := by
    apply List.flatMap_congr
    intro i hi
    have hi := (List.mem_range'_1.mp hi).2
    exact replacedAt_of_lt fun d hd => by
      have := h d hd
      omega
  have hall : ds.filter (fun d => buffer.length ≤ d.sourceRange.start) = ds :=
    List.filter_eq_self.mpr fun d hd => decide_eq_true (h d hd)
  rw [remaining, hkept, flatMap_getElem? hs le_rfl, List.take_length, appended, hall]

theorem replacedAt_cons_of_le {i : ℕ} (hstop : d.sourceRange.stop ≤ i)
    (hne : d.sourceRange.start ≠ i) : replacedAt (d :: ds) buffer i = replacedAt ds buffer i := by
  have hcovered : (∃ e ∈ d :: ds, e.sourceRange.start ≤ i ∧ i < e.sourceRange.stop) ↔
      ∃ e ∈ ds, e.sourceRange.start ≤ i ∧ i < e.sourceRange.stop := by
    rw [List.exists_mem_cons_iff]
    exact or_iff_right fun h => absurd h.2 (not_lt.mpr hstop)
  simp only [replacedAt, hcovered, List.filter_cons, decide_eq_true_eq, hne, if_false]

theorem replacedAt_inside {i : ℕ} (hstart : d.sourceRange.start < i)
    (hstop : i < d.sourceRange.stop)
    (hlater : ∀ e ∈ ds, d.sourceRange.stop ≤ e.sourceRange.start) :
    replacedAt (d :: ds) buffer i = [] := by
  have hnone : (d :: ds).filter (fun e => e.sourceRange.start = i) = [] := by
    apply List.filter_eq_nil_iff.mpr
    intro e he
    rw [decide_eq_true_eq]
    rcases List.mem_cons.mp he with rfl | he
    · exact hstart.ne
    · exact (hstop.trans_le (hlater e he)).ne'
  rw [replacedAt, hnone, if_pos ⟨d, List.mem_cons_self, hstart.le, hstop⟩]
  rfl

theorem filter_start_self (d : Diff) (ds : List Diff) :
    (d :: ds).filter (fun e => e.sourceRange.start = d.sourceRange.start) =
      d :: ds.filter fun e => e.sourceRange.start = d.sourceRange.start :=
  List.filter_cons_of_pos (by simp)

/-- An insertion comes before what the later diffs put at the same place. -/
theorem replacedAt_insertion (h : d.sourceRange.start = d.sourceRange.stop) :
    replacedAt (d :: ds) buffer d.sourceRange.start =
      d.value ++ replacedAt ds buffer d.sourceRange.start := by
  have hcovered : (∃ e ∈ d :: ds, e.sourceRange.start ≤ d.sourceRange.start ∧
      d.sourceRange.start < e.sourceRange.stop) ↔ ∃ e ∈ ds,
        e.sourceRange.start ≤ d.sourceRange.start ∧ d.sourceRange.start < e.sourceRange.stop := by
    rw [List.exists_mem_cons_iff]
    exact or_iff_right fun hd => absurd hd.2 (not_lt.mpr (Nat.le_of_eq h.symm))
  rw [replacedAt, replacedAt, filter_start_self, List.flatMap_cons,
    List.append_assoc]
  simp only [hcovered]

theorem replacedAt_start (h : d.sourceRange.start < d.sourceRange.stop)
    (hlater : ∀ e ∈ ds, d.sourceRange.stop ≤ e.sourceRange.start) :
    replacedAt (d :: ds) buffer d.sourceRange.start = d.value := by
  have hnone : ds.filter (fun e => e.sourceRange.start = d.sourceRange.start) = [] := by
    apply List.filter_eq_nil_iff.mpr
    intro e he
    rw [decide_eq_true_eq]
    exact (h.trans_le (hlater e he)).ne'
  rw [replacedAt, filter_start_self, hnone,
    if_pos ⟨d, List.mem_cons_self, le_rfl, h⟩, List.flatMap_singleton, List.append_nil]

theorem flatMap_replacedAt_cons (hle : d.sourceRange.start ≤ d.sourceRange.stop)
    (hlater : ∀ e ∈ ds, d.sourceRange.stop ≤ e.sourceRange.start)
    (hd : d.sourceRange.stop ≤ t) (hstart : d.sourceRange.start < t) :
    (List.range' d.sourceRange.start (t - d.sourceRange.start)).flatMap
        (replacedAt (d :: ds) buffer) =
      d.value ++ (List.range' d.sourceRange.stop (t - d.sourceRange.stop)).flatMap
        (replacedAt ds buffer) := by
  have hcongr : ∀ u n, d.sourceRange.stop ≤ u → d.sourceRange.start < u →
      (List.range' u n).flatMap (replacedAt (d :: ds) buffer) =
        (List.range' u n).flatMap (replacedAt ds buffer) := by
    intro u n hu hu'
    apply List.flatMap_congr
    intro i hi
    have hi := (List.mem_range'_1.mp hi).1
    exact replacedAt_cons_of_le (hu.trans hi) (hu'.trans_le hi).ne
  rcases hle.eq_or_lt with heq | hlt
  · obtain ⟨n, hn⟩ : ∃ n, t - d.sourceRange.start = n + 1 := ⟨t - d.sourceRange.start - 1, by omega⟩
    rw [← heq, hn, List.range'_succ, List.flatMap_cons, List.flatMap_cons,
      replacedAt_insertion heq, hcongr _ _ (by omega) (by omega), List.append_assoc]
  · obtain ⟨n, hn⟩ : ∃ n, d.sourceRange.stop = d.sourceRange.start + (n + 1) :=
      ⟨d.sourceRange.stop - d.sourceRange.start - 1, by omega⟩
    have hsplit : List.range' d.sourceRange.start (t - d.sourceRange.start) =
        d.sourceRange.start :: List.range' (d.sourceRange.start + 1) n ++
          List.range' d.sourceRange.stop (t - d.sourceRange.stop) := by
      rw [← List.range'_succ, hn, List.range'_append_1]
      congr 1
      omega
    have hinside : (List.range' (d.sourceRange.start + 1) n).flatMap
        (replacedAt (d :: ds) buffer) = [] := by
      apply List.flatMap_eq_nil_iff.mpr
      intro i hi
      have hi := List.mem_range'_1.mp hi
      exact replacedAt_inside (by omega) (by omega) hlater
    rw [hsplit, List.flatMap_append, List.flatMap_cons, replacedAt_start hlt hlater, hinside,
      hcongr _ _ le_rfl hlt, List.append_nil]

theorem remaining_cons (hfollow : Follow s (d :: ds)) (hd : d.sourceRange.stop ≤ buffer.length)
    (hstart : d.sourceRange.start < buffer.length) :
    remaining (d :: ds) buffer s = (buffer.take d.sourceRange.start).drop s ++ d.value ++
      remaining ds buffer d.sourceRange.stop := by
  obtain ⟨hs, hle, hrest⟩ := hfollow
  have hlater : ∀ e ∈ ds, d.sourceRange.stop ≤ e.sourceRange.start := fun e he => hrest.le_start he
  have hsplit : List.range' s (buffer.length - s) = List.range' s (d.sourceRange.start - s) ++
      List.range' d.sourceRange.start (buffer.length - d.sourceRange.start) := by
    obtain ⟨n, hn⟩ := Nat.exists_eq_add_of_le hs
    rw [hn, Nat.add_sub_cancel_left, List.range'_append_1]
    congr 1
    omega
  have hbefore : (List.range' s (d.sourceRange.start - s)).flatMap (replacedAt (d :: ds) buffer) =
      (buffer.take d.sourceRange.start).drop s := by
    rw [← flatMap_getElem? hs hstart.le]
    apply List.flatMap_congr
    intro i hi
    have hi := (List.mem_range'_1.mp hi).2
    apply replacedAt_of_lt
    intro e he
    rcases List.mem_cons.mp he with rfl | he
    · omega
    · have := hlater e he
      omega
  have hinside : appended (d :: ds) buffer = appended ds buffer := by
    rw [appended, List.filter_cons_of_neg (by simpa using hstart)]
    rfl
  rw [remaining, hsplit, List.flatMap_append, hbefore, flatMap_replacedAt_cons hle hlater hd hstart,
    hinside, remaining]
  simp only [List.append_assoc]

theorem drop_split (hst : s ≤ t) (ht : t ≤ buffer.length) :
    (buffer.take t).drop s ++ buffer.drop t = buffer.drop s := by
  have hs : s ≤ (buffer.take t).length := by rwa [List.length_take, Nat.min_eq_left ht]
  rw [← List.drop_append_of_le_length hs, List.take_append_drop]

theorem foldlM_outside {checks : Bool} {originLen : ℕ} {offset : ℤ} {x : List UInt8}
    (h : ∀ d ∈ ds, originLen ≤ d.sourceRange.start)
    (hdiff : ∀ d ∈ ds, ∃ n, d.offsetDiffIsize checks = some n) :
    ds.foldlM (Mutator.applyIsize checks originLen) (x, offset) =
      some (x ++ ds.flatMap Diff.value, offset) := by
  induction ds generalizing x with
  | nil => simp
  | cons d ds ih =>
    obtain ⟨n, hn⟩ := hdiff d List.mem_cons_self
    have hstep : Mutator.applyIsize checks originLen (x, offset) d =
        some (x ++ d.value, offset) := by
      simp [Mutator.applyIsize, hn, h d List.mem_cons_self]
    rw [List.foldlM_cons, hstep, List.flatMap_cons, ← List.append_assoc]
    exact ih (fun e he => h e (List.mem_cons_of_mem d he))
      (fun e he => hdiff e (List.mem_cons_of_mem d he))

/-- The loop invariant: what has been written, followed by the untouched rest of the buffer. -/
theorem foldlM_applyIsize {checks : Bool} {done : List UInt8} {offset : ℤ}
    (hfollow : Follow s ds) (hs : s ≤ buffer.length)
    (hinside : ∀ d ∈ ds, d.sourceRange.start < buffer.length →
      d.sourceRange.stop ≤ buffer.length)
    (houtside : ∀ d ∈ ds, buffer.length ≤ d.sourceRange.start →
      ∃ n, d.offsetDiffIsize checks = some n)
    (hoff : (done.length : ℤ) = s + offset) (hbuffer : buffer.length < 2 ^ 63)
    (hlen : done.length + (buffer.length - s) + (ds.map Diff.len).sum < 2 ^ 63) :
    ∃ offset', ds.foldlM (Mutator.applyIsize checks buffer.length) (done ++ buffer.drop s, offset) =
      some (done ++ remaining ds buffer s, offset') := by
  induction ds generalizing s done offset with
  | nil => exact ⟨offset, by rw [remaining_of_outside hs fun d hd => absurd hd List.not_mem_nil]; simp⟩
  | cons d ds ih =>
    obtain ⟨hsd, hle, hrest⟩ := hfollow
    by_cases hd : d.sourceRange.start < buffer.length
    · have hstop := hinside d List.mem_cons_self hd
      -- the buffer from `s` on: what is kept, what is replaced, and what comes behind
      obtain ⟨between, hbetween⟩ : ∃ b, b = (buffer.take d.sourceRange.start).drop s := ⟨_, rfl⟩
      obtain ⟨old, hold⟩ : ∃ o, o = (buffer.take d.sourceRange.stop).drop d.sourceRange.start :=
        ⟨_, rfl⟩
      have hlbetween : between.length = d.sourceRange.start - s := by
        rw [hbetween, List.length_drop, List.length_take, Nat.min_eq_left hd.le]
      have hlold : old.length = d.sourceRange.stop - d.sourceRange.start := by
        rw [hold, List.length_drop, List.length_take, Nat.min_eq_left hstop]
      have hsplit : buffer.drop s = between ++ old ++ buffer.drop d.sourceRange.stop := by
        rw [hbetween, hold, List.append_assoc, drop_split hle hstop, drop_split hsd hd.le]
      rw [List.map_cons, List.sum_cons, Diff.len] at hlen
      have hrange : InRange d offset := {
        start_le_stop := hle
        stop_lt := by omega
        value_lt := by omega
        start_nonneg := by omega
        stop_fits := by omega
        offset_fits := by
          simp only [Diff.offsetDiff, IsizeFits]
          omega }
      have hstep := Mutator.apply_inside d offset (done ++ between) old
        (buffer.drop d.sourceRange.stop) hd (by rw [List.length_append]; omega) (by omega)
      obtain ⟨offset', h⟩ := @ih d.sourceRange.stop (done ++ between ++ d.value)
        (offset + d.offsetDiff) hrest hstop
        (fun e he => hinside e (List.mem_cons_of_mem d he))
        (fun e he => houtside e (List.mem_cons_of_mem d he))
        (by simp only [List.length_append, Diff.offsetDiff]; omega)
        (by simp only [List.length_append]; omega)
      refine ⟨offset', ?_⟩
      rw [List.foldlM_cons, hsplit, remaining_cons ⟨hsd, hle, hrest⟩ hstop hd, ← hbetween,
        applyIsize_eq hrange hd, ← List.append_assoc, ← List.append_assoc, hstep]
      rw [List.append_assoc, List.append_assoc] at h
      simpa only [List.append_assoc, Option.bind_eq_bind, Option.bind_some] using h
    · have hd := not_lt.mp hd
      -- from a diff behind the buffer on, all are
      have hall : ∀ e ∈ d :: ds, buffer.length ≤ e.sourceRange.start := by
        intro e he
        rcases List.mem_cons.mp he with rfl | he
        · exact hd
        · exact (hd.trans hle).trans (hrest.le_start he)
      refine ⟨offset, ?_⟩
      rw [foldlM_outside hall fun e he => houtside e he (hall e he), remaining_of_outside hs hall,
        List.append_assoc]

end

section
variable {m : Mutator} {buffer : List UInt8} {checks : Bool}

theorem sorted_perm (m : Mutator) : m.sorted.Perm m.diff := List.mergeSort_perm _ _

theorem start_trans (a b c : Diff) (hab : decide (a.sourceRange.start ≤ b.sourceRange.start) = true)
    (hbc : decide (b.sourceRange.start ≤ c.sourceRange.start) = true) :
    decide (a.sourceRange.start ≤ c.sourceRange.start) = true :=
  decide_eq_true ((of_decide_eq_true hab).trans (of_decide_eq_true hbc))

theorem start_total (a b : Diff) : (decide (a.sourceRange.start ≤ b.sourceRange.start) ||
    decide (b.sourceRange.start ≤ a.sourceRange.start)) = true := by
  simpa using le_total _ _

/-- Diffs at one place stay in the order in which they were pushed. -/
theorem filter_sorted (m : Mutator) (i : ℕ) :
    m.sorted.filter (fun d => d.sourceRange.start = i) =
      m.diff.filter fun d => d.sourceRange.start = i := by
  have hpairwise : (m.diff.filter fun d => d.sourceRange.start = i).Pairwise
      fun a b => decide (a.sourceRange.start ≤ b.sourceRange.start) = true := by
    refine List.pairwise_of_forall_mem_list fun a ha b hb => ?_
    have ha := of_decide_eq_true (List.mem_filter.mp ha).2
    have hb := of_decide_eq_true (List.mem_filter.mp hb).2
    exact decide_eq_true (ha.trans hb.symm).le
  have hsub := (List.sublist_mergeSort start_trans start_total hpairwise List.filter_sublist).filter
    fun d => d.sourceRange.start = i
  rw [List.filter_filter] at hsub
  simp only [Bool.and_self] at hsub
  exact (hsub.eq_of_length_le (((sorted_perm m).filter _).length_eq).le).symm

theorem replacedAt_sorted (m : Mutator) (buffer : List UInt8) :
    replacedAt m.sorted buffer = replacedAt m.diff buffer := by
  funext i
  simp only [replacedAt, filter_sorted, (sorted_perm m).mem_iff]

theorem remaining_sorted (m : Mutator) (buffer : List UInt8) :
    remaining m.sorted buffer 0 = replaced m buffer := by
  rw [remaining, replaced, replacedAt_sorted, List.range_eq_range', Nat.sub_zero]

theorem follow_of_isChain {s : ℕ} {ds : List Diff} (hs : ∀ d ∈ ds.head?, s ≤ d.sourceRange.start)
    (hle : ∀ d ∈ ds, d.sourceRange.start ≤ d.sourceRange.stop)
    (hchain : ds.IsChain fun a b => a.sourceRange.stop ≤ b.sourceRange.start) : Follow s ds := by
  induction ds generalizing s with
  | nil => trivial
  | cons d ds ih =>
    refine ⟨hs d rfl, hle d List.mem_cons_self, ih ?_
      (fun e he => hle e (List.mem_cons_of_mem d he)) hchain.tail⟩
    intro e he
    exact hchain.rel_head? he

theorem offsetDiffIsize_of_foldlM {originLen : ℕ} {ds : List Diff} {x y : List UInt8 × ℤ}
    (h : ds.foldlM (Mutator.applyIsize checks originLen) x = some y) {d : Diff} (hd : d ∈ ds) :
    ∃ n, d.offsetDiffIsize checks = some n := by
  induction ds generalizing x with
  | nil => cases hd
  | cons e ds ih =>
    rw [List.foldlM_cons] at h
    obtain ⟨z, hz, h⟩ := Option.bind_eq_some_iff.mp h
    rcases List.mem_cons.mp hd with rfl | hd
    · obtain ⟨n, hn, _⟩ := Option.bind_eq_some_iff.mp hz
      exact ⟨n, hn⟩
    · exact ih h hd

theorem offsetDiffIsize_isSome {d : Diff} (hvalue : d.value.length < 2 ^ 63) :
    (∃ n, d.offsetDiffIsize checks = some n) ↔ (checks = true →
      IsizeFits (d.value.length - asIsize (d.sourceRange.stop - d.sourceRange.start : ℕ))) := by
  have hfits : IsizeFits d.value.length := ⟨by omega, by omega⟩
  simp only [Diff.offsetDiffIsize, isizeResult, asIsize_of_fits hfits]
  split_ifs with h
  · exact ⟨fun hn => hn.elim fun _ hf => hf.elim, fun hall => absurd (hall h.1) h.2⟩
  · exact ⟨fun _ hc => not_not.mp fun hn => h ⟨hc, hn⟩, fun _ => ⟨_, rfl⟩⟩

theorem mutateIsize_eq (h : DisjointRanges m buffer)
    (hfits : buffer.length + (m.diff.map Diff.len).sum < 2 ^ 63)
    (houtside : ∀ d ∈ m.diff, buffer.length ≤ d.sourceRange.start →
      ∃ n, d.offsetDiffIsize checks = some n) :
    m.mutateIsize checks buffer = some (replaced m buffer) := by
  have hmem (d : Diff) : d ∈ m.sorted ↔ d ∈ m.diff := (sorted_perm m).mem_iff
  have hfollow : Follow 0 m.sorted := follow_of_isChain (fun _ _ => Nat.zero_le _)
    (fun d hd => h.start_le_stop d ((hmem d).mp hd)) h.separate
  have hsum : (m.sorted.map Diff.len).sum = (m.diff.map Diff.len).sum :=
    ((sorted_perm m).map Diff.len).sum_eq
  obtain ⟨offset', hrun⟩ := @foldlM_applyIsize buffer 0 m.sorted checks [] 0 hfollow (Nat.zero_le _)
    (fun d hd => h.inside d ((hmem d).mp hd))
    (fun d hd => houtside d ((hmem d).mp hd)) rfl (by omega)
    (by rw [List.length_nil, hsum]; omega)
  rw [List.nil_append, List.nil_append, List.drop_zero, remaining_sorted] at hrun
  rw [Mutator.mutateIsize, hrun]
  rfl

/-- All places are replaced at once, and nothing panics, unless a build with overflow checks meets
a diff behind the buffer whose length difference is no `isize`. -/
theorem mutate_replaces_iff (checks : Bool) (m : Mutator) (buffer : List UInt8)
    (h : DisjointRanges m buffer) (hfits : buffer.length + (m.diff.map Diff.len).sum < 2 ^ 63) :
    m.mutateIsize checks buffer = some (replaced m buffer) ↔
      (checks = true → ∀ d ∈ m.diff, buffer.length ≤ d.sourceRange.start →
        IsizeFits (d.value.length - asIsize (d.sourceRange.stop - d.sourceRange.start : ℕ))) := by
  have hvalue : ∀ d ∈ m.diff, d.value.length < 2 ^ 63 := by
    intro d hd
    have hle : d.len ≤ (m.diff.map Diff.len).sum :=
      List.le_sum_of_mem (List.mem_map_of_mem hd)
    rw [Diff.len] at hle
    omega
  constructor
  · intro hrun hc d hd _
    obtain ⟨_, hrun, _⟩ := Option.map_eq_some_iff.mp hrun
    have hsome := offsetDiffIsize_of_foldlM hrun ((sorted_perm m).mem_iff.mpr hd)
    exact (offsetDiffIsize_isSome (hvalue d hd)).mp hsome hc
  · intro hall
    exact mutateIsize_eq h hfits fun d hd hout =>
      (offsetDiffIsize_isSome (hvalue d hd)).mpr fun hc => hall hc d hd hout

end

def mixedDiffs : Mutator :=
  ((((Mutator.new.makeDiff 4 5 [5, 6]).makeDiff 1 3 [3, 4]).makeDiff 0 0 [1]).makeDiff 3 4 [])

theorem mixedDiffs_sorted : mixedDiffs.sorted =
    [⟨⟨0, 0⟩, [1]⟩, ⟨⟨1, 3⟩, [3, 4]⟩, ⟨⟨3, 4⟩, []⟩, ⟨⟨4, 5⟩, [5, 6]⟩] := by
  simp [Mutator.sorted, mixedDiffs, Mutator.makeDiff, Mutator.new, List.mergeSort]

theorem mutate_replaces_mixed : mixedDiffs.mutateIsize true [2, 0, 0, 0] = some [1, 2, 3, 4, 5, 6] := by
  have hreplaced : replaced mixedDiffs [2, 0, 0, 0] = [1, 2, 3, 4, 5, 6] := by
    rw [replaced, mixedDiffs_sorted]
    decide
  rw [← hreplaced]
  apply (mutate_replaces_iff true mixedDiffs [2, 0, 0, 0] ?_ (by decide)).mpr
  · intro _
    decide
  · refine ⟨by decide, by decide, ?_⟩
    rw [mixedDiffs_sorted]
    simp

/-- A diff behind the buffer with a range of `2 ^ 63` places. -/
def wideDiff : Mutator := Mutator.new.makeDiff 0 (2 ^ 63) []

theorem wideDiff_panics :
    DisjointRanges wideDiff [] ∧ wideDiff.mutateIsize true [] = none := by
  have hsorted : wideDiff.sorted = [⟨⟨0, 2 ^ 63⟩, []⟩] := List.mergeSort_singleton _
  refine ⟨⟨by decide, by decide, ?_⟩, ?_⟩
  · rw [hsorted]
    exact List.isChain_singleton _
  · rw [Mutator.mutateIsize, hsorted]
    decide

end MoveTools.Compat
