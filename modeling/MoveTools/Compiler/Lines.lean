import Mathlib.Data.List.Chain
import MoveTools.Compiler.LineEndings

namespace MoveTools.Compiler.LineEndings

/-- How a text is read: each CRLF pair as one unit, each other carriage return as one. -/
structure IsReading (s : Text) (us : List LineUnit) : Prop where
  source : sourceOf us = s
  noReturn : .char '\r' ∉ us
  pairs : us.IsChain fun u v => ¬(u = .cr ∧ v = .char '\n')

/-- The lines of a text in which CRLF, CR and LF end a line. -/
def lines : Text → List Text
  | [] => [[]]
  | '\r' :: '\n' :: s => [] :: lines s
  | '\r' :: s => [] :: lines s
  | '\n' :: s => [] :: lines s
  | c :: s => (lines s).modifyHead (c :: ·)

theorem units_cr {s : Text} (h : s.head? ≠ some '\n') : units ('\r' :: s) = .cr :: units s := by
  cases s with
  | nil => rfl
  | cons c s =>
    rw [units]
    intro t ht
    simp_all

theorem units_char {c : Char} (h : c ≠ '\r') (s : Text) : units (c :: s) = .char c :: units s := by
  rw [units]
  · exact fun t hc => absurd hc h
  · exact fun hc => absurd hc h

theorem head_sourceOf {us : List LineUnit} (hn : LineUnit.char '\n' ∉ us.head?) :
    (sourceOf us).head? ≠ some '\n' := by
  cases us with
  | nil => simp [sourceOf]
  | cons u us =>
    cases u with
    | crlf => simp [LineUnit.source]
    | cr => simp [LineUnit.source]
    | char c => simpa [LineUnit.source] using hn

theorem IsReading.eq_units {s : Text} {us : List LineUnit} (h : IsReading s us) : us = units s := by
  obtain ⟨rfl, hr, hp⟩ := h
  induction us with
  | nil => rfl
  | cons u us ih =>
    have hp' := List.isChain_cons.mp hp
    have hrest := ih (fun h => hr (List.mem_cons_of_mem _ h)) hp'.2
    rw [sourceOf_cons]
    cases u with
    | crlf => exact congrArg (LineUnit.crlf :: ·) hrest
    | cr =>
      have hn : LineUnit.char '\n' ∉ us.head? := fun hm => hp'.1 _ hm ⟨rfl, rfl⟩
      exact (congrArg (LineUnit.cr :: ·) hrest).trans (units_cr (head_sourceOf hn)).symm
    | char c =>
      have hc : c ≠ '\r' := fun hc => hr (by rw [hc]; exact List.mem_cons_self)
      exact (congrArg (LineUnit.char c :: ·) hrest).trans (units_char hc _).symm

theorem head_units {s : Text} : (units s).head? = some (.char '\n') → s.head? = some '\n' := by
  fun_cases units s with
  | case4 c s => simp
  | _ => simp

theorem isReading_units (s : Text) : IsReading s (units s) where
  source := sourceOf_units s
  noReturn := by
    fun_induction units s with
    | case1 => exact List.not_mem_nil
    | case2 s ih => simpa using ih
    | case3 s _ ih => simpa using ih
    | case4 c s _ hc ih =>
      rw [List.mem_cons, not_or, LineUnit.char.injEq]
      exact ⟨fun h => hc h.symm, ih⟩
  pairs := by
    fun_induction units s with
    | case1 => exact .nil
    | case2 s ih => exact List.isChain_cons.mpr ⟨fun v _ h => LineUnit.noConfusion h.1, ih⟩
    | case3 s hlf ih =>
      refine List.isChain_cons.mpr ⟨fun v hv h => ?_, ih⟩
      obtain ⟨-, rfl⟩ := h
      obtain ⟨t, rfl⟩ := List.head?_eq_some_iff.mp (head_units hv)
      exact hlf t rfl
    | case4 c s _ _ ih => exact List.isChain_cons.mpr ⟨fun v _ h => LineUnit.noConfusion h.1, ih⟩

theorem not_mem_targetOf {us : List LineUnit} (h : LineUnit.char '\r' ∉ us) :
    '\r' ∉ targetOf us := by
  intro hm
  obtain ⟨u, hu, ht⟩ := List.mem_map.mp hm
  cases u with
  | crlf => exact absurd ht (by decide)
  | cr => exact absurd ht (by decide)
  | char c => exact h (by rwa [← show c = '\r' from ht])

theorem lines_char {c : Char} (hr : c ≠ '\r') (hn : c ≠ '\n') (s : Text) :
    lines (c :: s) = (lines s).modifyHead (c :: ·) := by
  rw [lines]
  · exact fun t hc => absurd hc hr
  · exact fun hc => absurd hc hr
  · exact fun hc => absurd hc hn

theorem lines_targetOf (s : Text) : lines (targetOf (units s)) = lines s := by
  fun_induction lines s with
  | case1 => rfl
  | case2 s ih => exact congrArg ([] :: ·) ih
  | case3 s hlf ih =>
    have hs : s.head? ≠ some '\n' := by
      intro hh
      obtain ⟨t, rfl⟩ := List.head?_eq_some_iff.mp hh
      exact hlf t rfl
    rw [units_cr hs]
    exact congrArg ([] :: ·) ih
  | case4 s ih =>
    rw [units_char (by decide)]
    exact congrArg ([] :: ·) ih
  | case5 c s _ hr hn ih =>
    rw [units_char hr, targetOf_cons]
    exact (lines_char hr hn _).trans (congrArg (List.modifyHead (c :: ·)) ih)

/-- Each CRLF pair and each other carriage return becomes one line feed, and nothing else
changes. -/
theorem normalize_lines (s : Text) :
    IsReading s (units s) ∧ (∀ us, IsReading s us → (normalize s).1 = targetOf us) ∧
      '\r' ∉ (normalize s).1 ∧ lines (normalize s).1 = lines s ∧
      (normalize (normalize s).1).1 = (normalize s).1 := by
  have hreading := isReading_units s
  have htext : (normalize s).1 = targetOf (units s) := by rw [normalize_eq]
  have hno : '\r' ∉ (normalize s).1 := by
    rw [htext]
    exact not_mem_targetOf hreading.noReturn
  refine ⟨hreading, fun us h => by rw [htext, h.eq_units], hno, ?_, ?_⟩
  · rw [htext, lines_targetOf]
  · rw [normalize_of_not_mem hno]

end MoveTools.Compiler.LineEndings
