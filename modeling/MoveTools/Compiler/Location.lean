import Mathlib.Data.List.TakeWhile
import MoveTools.Compiler.SourceMap

namespace MoveTools.Compiler.Location

structure Position where
  line : ℕ
  character : ℕ
  deriving DecidableEq

inductive LocationError where
  | outOfBounds (given : ℕ) (span : Span)
  | invalidCharBoundary (given : ℕ)
  deriving DecidableEq

def afterNewlines : ℕ → Text → List ℕ
  | _, [] => []
  | n, c :: s =>
    if c = '\n' then (n + c.utf8Size) :: afterNewlines (n + c.utf8Size) s
    else afterNewlines (n + c.utf8Size) s

structure File where
  source : Text
  lineStarts : List ℕ

namespace File

def new (source : Text) : File := ⟨source, (0 :: afterNewlines 0 source).map asU32⟩

variable (file : File)

def sourceSpan : Span := ⟨0, asU32 (Text.len file.source)⟩

def lastLineIndex : ℕ := asU32 file.lineStarts.length

/-- `none`: the index is out of bounds. -/
def lineStart (lineIndex : ℕ) : Option ℕ :=
  match compare lineIndex file.lastLineIndex with
  | .lt => file.lineStarts[lineIndex]?
  | .eq => some file.sourceSpan.stop
  | .gt => none

/-- `binary_search` in the sorted line starts: the last of them that is not after the index. -/
def lineIndex (byteIndex : ℕ) : ℕ := (file.lineStarts.takeWhile (· ≤ byteIndex)).length - 1

def position (byteIndex : ℕ) : Except LocationError Position :=
  let lineIndex := file.lineIndex byteIndex
  match file.lineStart lineIndex with
  | none => .error (.outOfBounds byteIndex file.sourceSpan)
  | some lineStartIndex =>
    match file.source.slice lineStartIndex byteIndex with
    | none =>
      .error (if file.sourceSpan.stop ≤ byteIndex then .outOfBounds byteIndex file.sourceSpan
        else .invalidCharBoundary byteIndex)
    | some lineSrc => .ok ⟨lineIndex, asU32 lineSrc.length⟩

end File

theorem afterNewlines_boundary {n start : ℕ} {before s : Text} (hbefore : Text.len before = n)
    (h : start ∈ afterNewlines n s) : (before ++ s).isCharBoundary start := by
  induction s generalizing n before with
  | nil => cases h
  | cons c s ih =>
    have hnext : Text.len (before ++ [c]) = n + c.utf8Size := by simp [hbefore]
    have happend : before ++ c :: s = (before ++ [c]) ++ s := by simp
    rw [happend]
    unfold afterNewlines at h
    split at h
    · rcases List.mem_cons.mp h with rfl | h
      · exact Text.isCharBoundary_iff.mpr ⟨_, _, rfl, hnext⟩
      · exact ih hnext h
    · exact ih hnext h

theorem length_afterNewlines_le (n : ℕ) (s : Text) : (afterNewlines n s).length ≤ Text.len s := by
  induction s generalizing n with
  | nil => simp [afterNewlines]
  | cons c s ih =>
    have := ih (n + c.utf8Size)
    have hpos := c.utf8Size_pos
    unfold afterNewlines
    split
    · rw [List.length_cons, Text.len_cons]
      omega
    · rw [Text.len_cons]
      omega

namespace File

variable {source : Text} {b : ℕ}

theorem lineStarts_boundary (hlen : Text.len source < 2 ^ 32) {start : ℕ}
    (h : start ∈ (new source).lineStarts) : source.isCharBoundary start := by
  obtain ⟨n, hn, rfl⟩ := List.mem_map.mp h
  have hb : source.isCharBoundary n := by
    rcases List.mem_cons.mp hn with rfl | hn
    · exact Text.isCharBoundary_iff.mpr ⟨[], source, rfl, rfl⟩
    · have hnil : Text.len [] = 0 := rfl
      exact afterNewlines_boundary hnil hn
  rwa [asU32, Nat.mod_eq_of_lt ((Text.le_len_of_isCharBoundary hb).trans_lt hlen)]

theorem lineStart_lineIndex (hlen : Text.len source < 2 ^ 32 - 1) (b : ℕ) :
    ∃ start, (new source).lineStart ((new source).lineIndex b) = some start ∧ start ≤ b ∧
      source.isCharBoundary start := by
  have hcount := length_afterNewlines_le 0 source
  have hlines : (new source).lineStarts.length = (afterNewlines 0 source).length + 1 := by
    simp [new]
  have hlast : (new source).lastLineIndex = (new source).lineStarts.length := by
    rw [lastLineIndex, asU32, Nat.mod_eq_of_lt (by omega)]
  have hfirst : (new source).lineStarts.takeWhile (· ≤ b) =
      0 :: ((afterNewlines 0 source).map asU32).takeWhile (· ≤ b) := by
    simp [new, asU32]
  have hlt : (new source).lineIndex b < ((new source).lineStarts.takeWhile (· ≤ b)).length := by
    rw [lineIndex, hfirst]
    simp
  have hprefix := List.takeWhile_prefix (l := (new source).lineStarts) (· ≤ b)
  have hget := List.prefix_iff_getElem.mp hprefix
  obtain ⟨hle, hget⟩ := hget
  have hlt' := hlt.trans_le hle
  refine ⟨(new source).lineStarts[(new source).lineIndex b], ?_, ?_, ?_⟩
  · rw [lineStart, hlast, compare_lt_iff_lt.mpr hlt']
    exact List.getElem?_eq_getElem hlt'
  · rw [← hget _ hlt]
    simpa using List.mem_takeWhile_imp (List.getElem_mem hlt)
  · exact lineStarts_boundary (by omega) (List.getElem_mem hlt')

theorem position_ok (hlen : Text.len source < 2 ^ 32 - 1) (hb : source.isCharBoundary b) :
    ∃ p, (new source).position b = .ok p := by
  obtain ⟨start, hstart, hle, hboundary⟩ := lineStart_lineIndex hlen b
  obtain ⟨lineSrc, hslice⟩ := Text.slice_of_boundaries hboundary hb hle
  have hsource : (new source).source.slice start b = some lineSrc := hslice
  exact ⟨_, by simp only [position, hstart, hsource]; rfl⟩

end File
end MoveTools.Compiler.Location
