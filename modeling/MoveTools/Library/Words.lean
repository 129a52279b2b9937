import Mathlib.Data.List.Infix
import MoveTools.Library.Text

namespace MoveTools.Text

/-- `char::is_whitespace`: the property White_Space. -/
def isWhitespace (c : Char) : Bool :=
  let n := c.toNat
  (0x9 ≤ n && n ≤ 0xd) || n == 0x20 || n == 0x85 || n == 0xa0 || n == 0x1680 ||
    (0x2000 ≤ n && n ≤ 0x200a) || n == 0x2028 || n == 0x2029 || n == 0x202f || n == 0x205f ||
    n == 0x3000

theorem not_isAlphanum_of_isWhitespace {c : Char} (hc : isWhitespace c) : ¬c.isAlphanum := by
  intro halphanum
  have hrange := isAlphanum_iff.mp halphanum
  simp only [isWhitespace, Bool.or_eq_true, Bool.and_eq_true, decide_eq_true_eq, beq_iff_eq] at hc
  omega

/-- `str::trim` -/
def trim (s : Text) : Text := (s.dropWhile isWhitespace).rdropWhile isWhitespace

/-- `s.splitn(2, p)` with both parts trimmed; `none` where there is no second. -/
def splitAround (s p : Text) : Option (Text × Text) :=
  (find p s).map fun x => (trim x.1, trim x.2)

theorem splitAround_char {s : Text} {c : Char} (h : s.contains c) :
    ∃ x, splitAround s [c] = some x := by
  cases hfind : find [c] s with
  | none =>
    have hno := find_eq_none_iff.mp hfind
    rw [List.singleton_infix_iff] at hno
    exact absurd (List.contains_iff_mem.mp h) hno
  | some x =>
    unfold splitAround
    rw [hfind]
    exact ⟨_, rfl⟩

theorem contains_of_splitAround {s : Text} {c : Char} {x : Text × Text}
    (h : splitAround s [c] = some x) : s.contains c := by
  obtain ⟨⟨a, b⟩, hfind, -⟩ := Option.map_eq_some_iff.mp h
  rw [find_eq_some hfind]
  simp

/-- `bool::from_str` -/
def parseBool (s : Text) : Option Bool :=
  if s = "true".toList then some true else if s = "false".toList then some false else none

theorem parseBool_eq_some_iff {s : Text} {b : Bool} :
    parseBool s = some b ↔ s = if b then "true".toList else "false".toList := by
  unfold parseBool
  split
  case isTrue h =>
    subst h
    cases b <;> decide
  case isFalse htrue =>
    split
    case isTrue h =>
      subst h
      cases b <;> decide
    case isFalse hfalse =>
      refine iff_of_false (fun h => by cases h) fun hb => ?_
      cases b
      · exact hfalse hb
      · exact htrue hb

end MoveTools.Text
