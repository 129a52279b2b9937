import MoveTools.Library.Splice
import Mathlib.Data.List.Nodup
import Mathlib.Tactic.Linarith

namespace MoveTools.Compat
open Splice

structure Range where
  start : ℕ
  stop : ℕ
  deriving DecidableEq, Repr

structure Diff where
  sourceRange : Range
  value : List UInt8
  deriving DecidableEq, Repr

namespace Diff

def offsetDiff (d : Diff) : ℤ :=
  let originLen := d.sourceRange.stop - d.sourceRange.start
  (d.value.length : ℤ) - originLen

def sourceRangeWithDiff (d : Diff) (offsetDiff : ℤ) : Range :=
  ⟨(d.sourceRange.start + offsetDiff).toNat, (d.sourceRange.stop + offsetDiff).toNat⟩

def startWithDiff (d : Diff) (offsetDiff : ℤ) : ℕ := (d.sourceRange.start + offsetDiff).toNat

def len (d : Diff) : ℕ := d.value.length

end Diff

def vecInsert (buffer : List UInt8) (index : ℕ) (element : UInt8) : Option (List UInt8) :=
  if index ≤ buffer.length then some (buffer.insertIdx index element) else none

def vecRemove (buffer : List UInt8) (index : ℕ) : Option (List UInt8) :=
  if index < buffer.length then some (buffer.eraseIdx index) else none

/-- `buffer[range].copy_from_slice(src)` -/
def copyFromSlice (buffer : List UInt8) (range : Range) (src : List UInt8) : Option (List UInt8) :=
  if range.start ≤ range.stop ∧ range.stop ≤ buffer.length ∧
      range.stop - range.start = src.length then
    some (buffer.take range.start ++ src ++ buffer.drop range.stop)
  else none

def insertEach : List UInt8 → ℕ → List UInt8 → Option (List UInt8)
  | [], _, buffer => some buffer
  | b :: bs, index, buffer => (vecInsert buffer index b).bind (insertEach bs (index + 1))

def removeTimes : ℕ → ℕ → List UInt8 → Option (List UInt8)
  | 0, _, buffer => some buffer
  | n + 1, index, buffer => (vecRemove buffer index).bind (removeTimes n index)

structure Mutator where
  diff : List Diff

namespace Mutator

def new : Mutator := ⟨[]⟩

def makeDiff (m : Mutator) (startOffset endOffset : ℕ) (newValue : List UInt8) : Mutator :=
  ⟨m.diff ++ [⟨⟨startOffset, endOffset⟩, newValue⟩]⟩

/-- One round of the loop over the sorted diffs. -/
def apply (originLen : ℕ) (s : List UInt8 × ℤ) (mutation : Diff) : Option (List UInt8 × ℤ) :=
  let (buffer, offsetDiff) := s
  let mutationDiffLen := mutation.offsetDiff
  if mutation.sourceRange.start ≥ originLen then some (buffer ++ mutation.value, offsetDiff)
  else
    let written :=
      if mutationDiffLen = 0 then
        copyFromSlice buffer (mutation.sourceRangeWithDiff offsetDiff) mutation.value
      else if mutationDiffLen > 0 then
        let start := mutation.startWithDiff offsetDiff
        let inserted := mutationDiffLen.natAbs
        let range := mutation.sourceRangeWithDiff offsetDiff
        (insertEach (mutation.value.take inserted) start buffer).bind fun buffer =>
          copyFromSlice buffer ⟨range.start + inserted, range.stop + inserted⟩
            (mutation.value.drop inserted)
      else
        let start := mutation.startWithDiff offsetDiff
        (removeTimes mutationDiffLen.natAbs start buffer).bind fun buffer =>
          copyFromSlice buffer ⟨start, start + mutation.len⟩ mutation.value
    written.map fun buffer => (buffer, offsetDiff + mutationDiffLen)

/-- The sort is stable. -/
def mutate (m : Mutator) (buffer : List UInt8) : Option (List UInt8) :=
  let diff := m.diff.mergeSort fun a b => a.sourceRange.start ≤ b.sourceRange.start
  (diff.foldlM (apply buffer.length) (buffer, 0)).map Prod.fst

end Mutator

/-- The diffs that rewrite a row of pieces which starts at `s`. -/
def diffsAt (s : ℕ) : List (Piece (List UInt8)) → List Diff
  | [] => []
  | .keep w :: ps => diffsAt (s + w.length) ps
  | .sub old new _ :: ps => ⟨⟨s, s + old.length⟩, new⟩ :: diffsAt (s + old.length) ps

@[simp] theorem diffsAt_append (s : ℕ) (ps qs : List (Piece (List UInt8))) :
    diffsAt s (ps ++ qs) = diffsAt s ps ++ diffsAt (s + (sourceText ps).length) qs := by
  induction ps generalizing s with
  | nil => rfl
  | cons x ps ih => cases x <;> simp [diffsAt, ih, Piece.source, Nat.add_assoc]

theorem le_start_of_mem {s : ℕ} {ps : List (Piece (List UInt8))} {d : Diff}
    (h : d ∈ diffsAt s ps) : s ≤ d.sourceRange.start := by
  induction ps generalizing s with
  | nil => simp [diffsAt] at h
  | cons x ps ih =>
    cases x with
    | keep w => exact (Nat.le_add_right _ _).trans (ih h)
    | sub old new l =>
      rcases List.mem_cons.mp h with rfl | h
      · exact le_rfl
      · exact (Nat.le_add_right _ _).trans (ih h)

/-- No two pieces are rewritten at the same place, and none at the end. -/
def Separated (ps : List (Piece (List UInt8))) : Prop :=
  ∀ s, (diffsAt s ps).Pairwise (fun a b => a.sourceRange.start < b.sourceRange.start) ∧
    ∀ d ∈ diffsAt s ps, d.sourceRange.start < s + (sourceText ps).length

namespace Separated

theorem nil : Separated [] := fun s => by simp [diffsAt]

theorem append {ps qs : List (Piece (List UInt8))} (hp : Separated ps) (hq : Separated qs) :
    Separated (ps ++ qs) := by
  intro s
  obtain ⟨hps, hpl⟩ := hp s
  obtain ⟨hqs, hql⟩ := hq (s + (sourceText ps).length)
  rw [diffsAt_append, sourceText_append, List.length_append]
  constructor
  · refine List.pairwise_append.mpr ⟨hps, hqs, fun a ha b hb => ?_⟩
    exact (hpl a ha).trans_le (le_start_of_mem hb)
  · intro d hd
    rcases List.mem_append.mp hd with hd | hd
    · have := hpl d hd
      omega
    · have := hql d hd
      omega

theorem flatMap {α : Type*} {xs : List α} {f : α → List (Piece (List UInt8))}
    (h : ∀ x ∈ xs, Separated (f x)) : Separated (xs.flatMap f) := by
  induction xs with
  | nil => exact nil
  | cons x xs ih =>
    rw [List.flatMap_cons]
    exact (h x List.mem_cons_self).append (ih fun y hy => h y (List.mem_cons_of_mem _ hy))

theorem keep (w : List UInt8) : Separated [.keep w] := fun s => by simp [diffsAt]

theorem sub {old : List UInt8} (new : List UInt8) (l : Bool) (h : old ≠ []) :
    Separated [.sub old new l] := by
  intro s
  have := List.length_pos_iff.mpr h
  simpa [diffsAt, Piece.source] using this

theorem insert (new : List UInt8) (l : Bool) {w : List UInt8} (h : w ≠ []) :
    Separated [.sub [] new l, .keep w] := by
  intro s
  have := List.length_pos_iff.mpr h
  simpa [diffsAt, Piece.source] using this

end Separated

theorem insertIdx_length_append (done rest : List UInt8) (b : UInt8) :
    (done ++ rest).insertIdx done.length b = done ++ [b] ++ rest := by
  induction done with
  | nil => rfl
  | cons a done ih => simpa using ih

theorem insertEach_append (bs done rest : List UInt8) :
    insertEach bs done.length (done ++ rest) = some (done ++ bs ++ rest) := by
  induction bs generalizing done with
  | nil => simp [insertEach]
  | cons b bs ih =>
    have := ih (done ++ [b])
    rw [List.length_append] at this
    rw [insertEach, vecInsert, if_pos (by simp), Option.bind_some, insertIdx_length_append]
    simpa using this

theorem removeTimes_append (done old rest : List UInt8) :
    removeTimes old.length done.length (done ++ old ++ rest) = some (done ++ rest) := by
  induction old with
  | nil => simp [removeTimes]
  | cons b old ih =>
    have hrem : (done ++ b :: old ++ rest).eraseIdx done.length = done ++ old ++ rest := by
      rw [List.append_assoc, List.eraseIdx_append_of_length_le le_rfl]
      simp
    rw [List.length_cons, removeTimes, vecRemove, if_pos (by simp), Option.bind_some, hrem,
      ih]

theorem copyFromSlice_append (done old src rest : List UInt8) (h : old.length = src.length) :
    copyFromSlice (done ++ old ++ rest) ⟨done.length, done.length + old.length⟩ src =
      some (done ++ src ++ rest) := by
  rw [copyFromSlice, if_pos (by simp; omega)]
  simp [List.drop_append]

/-- A diff inside the buffer replaces what it covers. -/
theorem Mutator.apply_inside {originLen : ℕ} (d : Diff) (offset : ℤ) (done old rest : List UInt8)
    (hin : d.sourceRange.start < originLen) (hstart : (done.length : ℤ) = d.sourceRange.start + offset)
    (hstop : d.sourceRange.stop = d.sourceRange.start + old.length) :
    apply originLen (done ++ old ++ rest, offset) d =
      some (done ++ d.value ++ rest, offset + d.offsetDiff) := by
  have hs : d.startWithDiff offset = done.length := by
    rw [Diff.startWithDiff, ← hstart, Int.toNat_natCast]
  have hr : d.sourceRangeWithDiff offset = ⟨done.length, done.length + old.length⟩ := by
    rw [Diff.sourceRangeWithDiff, ← hstart, hstop]
    congr 1
    omega
  have hd : d.offsetDiff = (d.value.length : ℤ) - old.length := by
    simp only [Diff.offsetDiff, hstop]
    omega
  simp only [apply, if_neg (not_le.mpr hin), hs, hr]
  split_ifs with hzero hpos
  · rw [copyFromSlice_append _ _ _ _ (by omega)]
    rfl
  · -- the surplus is inserted in front, the rest overwrites the old contents
    obtain ⟨front, back, hv, hf⟩ : ∃ front back, d.value = front ++ back ∧
        front.length = d.offsetDiff.natAbs :=
      ⟨_, _, (List.take_append_drop d.offsetDiff.natAbs _).symm, by rw [List.length_take]; omega⟩
    have hlen : d.value.length = front.length + back.length := by rw [hv, List.length_append]
    have htake : d.value.take d.offsetDiff.natAbs = front := by rw [hv, ← hf, List.take_left]
    have hdrop : d.value.drop d.offsetDiff.natAbs = back := by rw [hv, ← hf, List.drop_left]
    have hcopy := copyFromSlice_append (done ++ front) old back rest (by omega)
    rw [htake, hdrop, List.append_assoc done, insertEach_append, Option.bind_some, ← hf,
      ← List.append_assoc]
    rw [List.length_append] at hcopy
    rw [show done.length + old.length + front.length = done.length + front.length + old.length by
      omega, hcopy, hv]
    simp
  · -- what is too much is removed in front, the rest is overwritten
    obtain ⟨front, back, hv, hf⟩ : ∃ front back, old = front ++ back ∧
        front.length = d.offsetDiff.natAbs :=
      ⟨_, _, (List.take_append_drop d.offsetDiff.natAbs _).symm, by rw [List.length_take]; omega⟩
    have hlen : old.length = front.length + back.length := by rw [hv, List.length_append]
    have hback : back.length = d.value.length := by omega
    have hrem := removeTimes_append done front (back ++ rest)
    have hcopy := copyFromSlice_append done back d.value rest hback
    rw [hv, ← hf, List.append_assoc done, List.append_assoc front, ← List.append_assoc done, hrem,
      Option.bind_some, Diff.len, ← hback, ← List.append_assoc, hcopy]
    rfl

/-- The loop invariant: what has been written, followed by the rest of the original text. The
offset does not matter any more once the end of the original text is reached. -/
theorem Mutator.foldlM_diffsAt {originLen : ℕ} (ps : List (Piece (List UInt8))) (s : ℕ)
    (done : List UInt8) (offset : ℤ) (hlen : s + (sourceText ps).length = originLen)
    (hoff : s < originLen → (done.length : ℤ) = s + offset) :
    ∃ offset', (diffsAt s ps).foldlM (apply originLen) (done ++ sourceText ps, offset) =
      some (done ++ targetText ps, offset') := by
  induction ps generalizing s done offset with
  | nil => exact ⟨offset, rfl⟩
  | cons x ps ih =>
    rw [sourceText_cons, List.length_append] at hlen
    cases x with
    | keep w =>
      simp only [Piece.source] at hlen
      obtain ⟨offset', h⟩ := ih (s + w.length) (done ++ w) offset (by omega)
        (fun hs => by rw [List.length_append]; push_cast; have := hoff (by omega); omega)
      exact ⟨offset', by simpa [diffsAt, Piece.source, Piece.target] using h⟩
    | sub old new l =>
      simp only [Piece.source] at hlen
      by_cases hin : s < originLen
      · have hap := apply_inside ⟨⟨s, s + old.length⟩, new⟩ offset done old (sourceText ps) hin
          (hoff hin) rfl
        obtain ⟨offset', h⟩ := ih (s + old.length) (done ++ new)
          (offset + Diff.offsetDiff ⟨⟨s, s + old.length⟩, new⟩) (by omega) (fun hs => by
            have := hoff hin
            simp only [Diff.offsetDiff, List.length_append]
            push_cast
            omega)
        refine ⟨offset', ?_⟩
        rw [diffsAt, List.foldlM_cons, sourceText_cons, Piece.source, ← List.append_assoc, hap]
        simpa [Piece.target] using h
      · -- nothing of the original text is left
        obtain rfl : old = [] := List.length_eq_zero_iff.mp (by omega)
        have hps : sourceText ps = [] := List.length_eq_zero_iff.mp (by omega)
        have hap : apply originLen (done, offset) ⟨⟨s, s⟩, new⟩ = some (done ++ new, offset) := by
          simp [apply, not_lt.mp hin]
        obtain ⟨offset', h⟩ := ih s (done ++ new) offset (by simpa using hlen)
          (fun hs => absurd hs hin)
        refine ⟨offset', ?_⟩
        rw [hps, List.append_nil] at h
        simpa [diffsAt, Piece.source, Piece.target, hps, hap] using h

/-- Diffs that rewrite the pieces of a text, made in any order, are carried out together. -/
theorem Mutator.mutate_pieces {m : Mutator} {ps : List (Piece (List UInt8))}
    (hm : m.diff.Perm (diffsAt 0 ps)) (hs : Separated ps) :
    m.mutate (sourceText ps) = some (targetText ps) := by
  have hsorted : m.diff.mergeSort (fun a b => a.sourceRange.start ≤ b.sourceRange.start) =
      diffsAt 0 ps := by
    have hlt := (hs 0).1
    have hnodup : ((diffsAt 0 ps).map fun d => d.sourceRange.start).Nodup :=
      List.pairwise_map.mpr (hlt.imp fun h => h.ne)
    have hperm := (List.mergeSort_perm m.diff
      fun a b => a.sourceRange.start ≤ b.sourceRange.start).trans hm
    refine List.Perm.eq_of_pairwise (fun a b ha hb hab hba => ?_)
      (List.pairwise_mergeSort (fun a b c hab hbc => ?_) (fun a b => ?_) _) (hlt.imp fun h => ?_) hperm
    · exact List.inj_on_of_nodup_map hnodup (hperm.mem_iff.mp ha) hb
        (le_antisymm (of_decide_eq_true hab) (of_decide_eq_true hba))
    · exact decide_eq_true ((of_decide_eq_true hab).trans (of_decide_eq_true hbc))
    · simpa using le_total _ _
    · exact decide_eq_true h.le
  obtain ⟨offset', h⟩ := foldlM_diffsAt ps 0 [] 0 (Nat.zero_add _) (fun _ => by simp)
  simp only [mutate, hsorted]
  simpa using congrArg (Option.map Prod.fst) h

end MoveTools.Compat
