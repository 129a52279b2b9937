import Mathlib.Data.List.Count
import MoveTools.Library.Adjacent
import MoveTools.Library.Words
import MoveTools.Compiler.Positions

namespace MoveTools.Executor
open Compiler Location Adjacent

abbrev FileCommentMap := List (Span × Text)

/-- `file.position(..).unwrap().line` -/
def startLine (file : File) (span : Span) : Option ℕ :=
  (file.position span.start).toOption.map Position.line

/-- The loop over the comments, from the last. -/
def collectComments (file : File) : FileCommentMap → ℕ → Option (List Text)
  | [], _ => some []
  | (span, comment) :: rest, candidateLine => do
    let commentStartLine ← startLine file span
    if commentStartLine = candidateLine then
      match candidateLine with
      | 0 => some [Text.trim comment]
      | line + 1 => (collectComments file rest line).map (Text.trim comment :: ·)
    else collectComments file rest candidateLine

/-- `none` stands for a panic. -/
def extractScriptDocComments (scriptLoc : Span) (fileContent : Text)
    (fileComments : FileCommentMap) : Option (List Text) := do
  let file := File.new fileContent
  let scriptStartLine ← startLine file scriptLoc
  match scriptStartLine with
  | 0 => some []
  | line + 1 => (collectComments file fileComments.reverse line).map List.reverse

def lineAt (source : Text) (b : ℕ) : ℕ :=
  ((Text.splitBytes b source).map fun x => x.1.count '\n').getD 0

def Span.Before (x y : Span) : Prop := x.start < y.start ∨ x.start = y.start ∧ x.stop < y.stop

instance (x y : Span) : Decidable (Span.Before x y) := inferInstanceAs (Decidable (_ ∨ _))

/-- Comments of a text: they start in it, on different lines. -/
structure DocComments (source : Text) where
  comments : FileCommentMap
  sorted : comments.Pairwise fun x y => Span.Before x.1 y.1
  inside : ∀ x ∈ comments, source.isCharBoundary x.1.start
  onePerLine : comments.Pairwise fun x y => lineAt source x.1.start ≠ lineAt source y.1.start

section
variable {source before after : Text}

theorem lineAt_append : lineAt (before ++ after) (Text.len before) = before.count '\n' := by
  have hsplit : Text.splitBytes (Text.len before) (before ++ after) = some (before, after) :=
    Text.splitBytes_eq_some.mpr ⟨rfl, rfl⟩
  unfold lineAt
  rw [hsplit]
  rfl

theorem lineAt_mono {b b' : ℕ} (hb : source.isCharBoundary b) (hb' : source.isCharBoundary b')
    (h : b ≤ b') : lineAt source b ≤ lineAt source b' := by
  obtain ⟨before, after, rfl, rfl⟩ := Text.isCharBoundary_iff.mp hb
  obtain ⟨c, d, hcd, hlen⟩ := Text.isCharBoundary_iff.mp hb'
  have hbeginning : before <+: c := Text.beginning_of_len_le hcd (by omega)
  rw [lineAt_append, hcd, ← hlen, lineAt_append]
  exact hbeginning.sublist.count_le _

theorem startLine_new (hlen : Text.len source < 2 ^ 32) (hother : ∃ c ∈ source, c ≠ '\n')
    {span : Span} (h : source.isCharBoundary span.start) :
    startLine (File.new source) span = some (lineAt source span.start) := by
  have hlines : source.count '\n' < 2 ^ 32 - 1 := by
    obtain ⟨c, hc, hne⟩ := hother
    have hcount : source.count '\n' < source.length := List.count_lt_length_iff.mpr ⟨c, hc, hne⟩
    have := Text.length_le_len source
    omega
  obtain ⟨before, after, hsource, hstart⟩ := Text.isCharBoundary_iff.mp h
  unfold startLine
  rw [← hstart, File.position_boundary hlen hlines hsource, hsource, lineAt_append]
  rfl

def DocComments.lines (docs : DocComments source) : List (ℕ × Text) :=
  docs.comments.reverse.map fun x => (lineAt source x.1.start, Text.trim x.2)

variable (docs : DocComments source)

theorem lines_descend : docs.lines.Pairwise fun x y => y.1 < x.1 := by
  unfold DocComments.lines
  rw [List.pairwise_map, List.pairwise_reverse]
  have hboth := docs.sorted.and docs.onePerLine
  refine hboth.imp_of_mem fun {x y} hx hy h => ?_
  have hle : x.1.start ≤ y.1.start := by
    rcases h.1 with hlt | ⟨heq, -⟩
    · exact hlt.le
    · exact heq.le
  exact lt_of_le_of_ne (lineAt_mono (docs.inside x hx) (docs.inside y hy) hle) h.2

variable {docs} in
theorem mem_lines {n : ℕ} : (∃ a, (n, a) ∈ docs.lines) ↔
    ∃ x ∈ docs.comments, lineAt source x.1.start = n := by
  unfold DocComments.lines
  constructor
  · rintro ⟨a, ha⟩
    obtain ⟨x, hx, heq⟩ := List.mem_map.mp ha
    exact ⟨x, List.mem_reverse.mp hx, (Prod.mk.inj heq).1⟩
  · rintro ⟨x, hx, rfl⟩
    exact ⟨_, List.mem_map.mpr ⟨x, List.mem_reverse.mpr hx, rfl⟩⟩

theorem collectComments_cons {file : File} {x : Span × Text} {rest : FileCommentMap} {line : ℕ}
    (hx : startLine file x.1 = some line) (candidateLine : ℕ) :
    collectComments file (x :: rest) candidateLine =
      if line = candidateLine then
        match candidateLine with
        | 0 => some [Text.trim x.2]
        | n + 1 => (collectComments file rest n).map (Text.trim x.2 :: ·)
      else collectComments file rest candidateLine := by
  show (startLine file x.1 >>= _) = _
  rw [hx]
  rfl

/-- The loop takes the comments on the lines below the one it starts from. -/
theorem collectComments_eq (file : File) (line : Span → ℕ) {comments : FileCommentMap}
    (h : ∀ x ∈ comments, startLine file x.1 = some (line x.1)) (candidateLine : ℕ) :
    collectComments file comments candidateLine =
      some (takeBelow (comments.map fun x => (line x.1, Text.trim x.2)) (candidateLine + 1)) := by
  induction comments generalizing candidateLine with
  | nil => rfl
  | cons x comments ih =>
    obtain ⟨hx, hrest⟩ := List.forall_mem_cons.mp h
    rw [collectComments_cons hx, List.map_cons]
    by_cases hline : line x.1 = candidateLine
    · have htake : ∀ xs, takeBelow ((line x.1, Text.trim x.2) :: xs) (candidateLine + 1) =
          Text.trim x.2 :: takeBelow xs candidateLine := fun _ => if_pos hline
      rw [htake, if_pos hline]
      cases candidateLine with
      | zero => cases comments <;> rfl
      | succ n =>
        simp only [ih hrest n]
        rfl
    · have htake : ∀ xs, takeBelow ((line x.1, Text.trim x.2) :: xs) (candidateLine + 1) =
          takeBelow xs (candidateLine + 1) := fun _ => if_neg hline
      rw [htake, if_neg hline]
      exact ih hrest candidateLine

theorem extractScriptDocComments_eq (hlen : Text.len source < 2 ^ 32)
    (hother : ∃ c ∈ source, c ≠ '\n') (span : Span) (h : source.isCharBoundary span.start) :
    extractScriptDocComments span source docs.comments =
      some (takeBelow docs.lines (lineAt source span.start)).reverse := by
  have hrun : extractScriptDocComments span source docs.comments =
      (startLine (File.new source) span >>= fun scriptStartLine =>
        match scriptStartLine with
        | 0 => some []
        | line + 1 => (collectComments (File.new source) docs.comments.reverse line).map
            List.reverse) := rfl
  have hlines : ∀ x ∈ docs.comments.reverse,
      startLine (File.new source) x.1 = some (lineAt source x.1.start) :=
    fun x hx => startLine_new hlen hother (docs.inside x (List.mem_reverse.mp hx))
  rw [hrun, startLine_new hlen hother h, Option.bind_eq_bind, Option.bind_some]
  cases lineAt source span.start with
  | zero => cases docs.lines <;> rfl
  | succ line =>
    have hcollect := collectComments_eq (File.new source) (fun span => lineAt source span.start)
      hlines line
    simp only [hcollect]
    rfl

theorem reverse_takeBelow (bound : ℕ) : (takeBelow docs.lines bound).reverse =
    (docs.comments.filter fun x => bound - (takeBelow docs.lines bound).length ≤
      lineAt source x.1.start && lineAt source x.1.start < bound).map fun x => Text.trim x.2 := by
  conv_lhs => rw [takeBelow_eq_filter (lines_descend docs) bound]
  generalize (takeBelow docs.lines bound).length = k
  unfold DocComments.lines
  rw [List.filter_map, List.map_map, List.filter_reverse, List.map_reverse, List.reverse_reverse]
  rfl

end

/-- The block of comments that ends above the script, as long as no line is without one. -/
theorem script_doc_comments (source : Text) (hlen : Text.len source < 2 ^ 32)
    (docs : DocComments source) (before after : Text) (c : Char) (hc : c ≠ '\n')
    (hscript : source = before ++ c :: after) (stop : ℕ) :
    ∃ k, IsGreatest {k | k ≤ before.count '\n' ∧ ∀ n, before.count '\n' - k ≤ n →
        n < before.count '\n' → ∃ x ∈ docs.comments, lineAt source x.1.start = n} k ∧
      extractScriptDocComments ⟨Text.len before, stop⟩ source docs.comments =
        some ((docs.comments.filter fun x =>
          before.count '\n' - k ≤ lineAt source x.1.start &&
            lineAt source x.1.start < before.count '\n').map fun x => Text.trim x.2) := by
  have hother : ∃ c ∈ source, c ≠ '\n' := ⟨c, by simp [hscript], hc⟩
  have hboundary : source.isCharBoundary (Text.len before) :=
    Text.isCharBoundary_iff.mpr ⟨before, _, hscript, rfl⟩
  have hline : lineAt source (Text.len before) = before.count '\n' := by
    rw [hscript, lineAt_append]
  refine ⟨(takeBelow docs.lines (before.count '\n')).length, ?_, ?_⟩
  · have hgreatest := takeBelow_isGreatest (lines_descend docs) (before.count '\n')
    simp only [Filled, mem_lines] at hgreatest
    exact hgreatest
  · have hrun := extractScriptDocComments_eq docs hlen hother
      ⟨Text.len before, stop⟩ hboundary
    rw [hrun, hline, reverse_takeBelow]

/-- A comment, a gap, and another one above the script on line 3. -/
def gapText : Text := "/// a\n\n/// signers: 0x1\nscript \x7b\x7d".toList

theorem gap_ends_block : ∃ docs : DocComments gapText,
    docs.comments = [(⟨0, 5⟩, " a".toList), (⟨7, 23⟩, " signers: 0x1".toList)] ∧
      extractScriptDocComments ⟨24, 33⟩ gapText docs.comments =
        some ["signers: 0x1".toList] := by
  have hsorted : List.Pairwise (fun x y : Span × Text => Span.Before x.1 y.1)
      [(⟨0, 5⟩, " a".toList), (⟨7, 23⟩, " signers: 0x1".toList)] := by decide
  refine ⟨⟨_, hsorted, by decide, by decide⟩, rfl, ?_⟩
  obtain ⟨k, hk, hrun⟩ := script_doc_comments gapText (by decide)
    ⟨_, hsorted, by decide, by decide⟩ "/// a\n\n/// signers: 0x1\n".toList
    "cript \x7b\x7d".toList 's' (by decide) rfl 33
  have hthree : List.count '\n' "/// a\n\n/// signers: 0x1\n".toList = 3 := by decide
  have hone : k = 1 := by
    refine hk.unique ⟨⟨by decide, fun n hn hlt => ?_⟩, fun j hj => ?_⟩
    · rw [hthree] at hn hlt
      obtain rfl : n = 2 := by omega
      exact ⟨_, List.mem_cons_of_mem _ (List.mem_singleton_self _), by decide⟩
    · by_contra hlt
      obtain ⟨x, hx, hline⟩ := hj.2 1 (by omega) (by decide)
      rcases List.mem_cons.mp hx with rfl | hx
      · exact absurd hline (by decide)
      · rw [List.mem_singleton.mp hx] at hline
        exact absurd hline (by decide)
  subst hone
  rw [show (⟨24, 33⟩ : Span) = ⟨Text.len "/// a\n\n/// signers: 0x1\n".toList, 33⟩ from by decide]
  rw [hrun]
  rfl

end MoveTools.Executor
