import MoveTools.Library.Identifiers
import MoveTools.Library.Terms
import MoveTools.Executor.WriteSet

namespace MoveTools.Executor.WriteSet
open Collect Pipeline

section
variable {vm : MoveVm}

/-- Hexadecimal digits in small letters, for the first four bytes and for all. An address has at least
eight bytes. -/
structure Display.Documented (d : Display vm) (size : ℕ) : Prop where
  size_le : 8 ≤ size
  shortStr : ∀ addr, d.shortStr addr = Hex.ofNat 8 (addr / 256 ^ (size - 4))
  toString : ∀ addr, d.toString addr = Hex.ofNat (2 * size) addr

/-- One for all the addresses that have the same short text: where the first four bytes begin without
a zero, that is also the text of a small address. -/
def shownAddress (size : ℕ) (addr : AccountAddress) : AccountAddress :=
  let first := addr / 256 ^ (size - 4)
  if first = 0 then addr
  else if 16 ^ 7 ≤ first then first
  else first * 256 ^ (size - 4)

variable {d : Display vm} {size : ℕ} {a b : AccountAddress}

end

mutual

/-- The tag, with one address for all those that are shown alike. -/
def shownTag (size : ℕ) : TypeTag → TypeTag
  | .Struct s => .Struct (shownStruct size s)
  | .Vector t => .Vector (shownTag size t)
  | .U8 => .U8
  | .U64 => .U64
  | .U128 => .U128
  | .Address => .Address
  | .Signer => .Signer
  | .Bool => .Bool

def shownStruct (size : ℕ) : StructTag → StructTag
  | ⟨address, module, name, typeParams⟩ =>
    ⟨shownAddress size address, module, name, shownTags size typeParams⟩

def shownTags (size : ℕ) : List TypeTag → List TypeTag
  | [] => []
  | t :: ts => shownTag size t :: shownTags size ts

end

mutual

def WellFormed (size : ℕ) : TypeTag → Prop
  | .Struct s => WellFormedStruct size s
  | .Vector t => WellFormed size t
  | .U8 | .U64 | .U128 | .Address | .Signer | .Bool => True

def WellFormedStruct (size : ℕ) : StructTag → Prop
  | ⟨address, module, name, typeParams⟩ =>
    address < 256 ^ size ∧ IsName module ∧ IsName name ∧ WellFormedAll size typeParams

def WellFormedAll (size : ℕ) : List TypeTag → Prop
  | [] => True
  | t :: ts => WellFormed size t ∧ WellFormedAll size ts

end

def IsTagLetter (c : Char) : Prop := IsLetter c ∨ c = ':'

instance (c : Char) : Decidable (IsTagLetter c) := inferInstanceAs (Decidable (_ ∨ _))

def tagMarks : Marks IsTagLetter where
  left := '<'
  comma := ','
  space := [' ']
  right := '>'
  left_mark := by decide
  comma_mark := by decide
  right_mark := by decide
  comma_ne := by decide
  right_ne := by decide

section
variable {vm : MoveVm} (d : Display vm)

def structHead (address : AccountAddress) (module name : Text) : Text :=
  shortAddress d address ++ ("::".toList ++ (module ++ ("::".toList ++ name)))

mutual

def tagTerm : TypeTag → Term Char
  | .Struct s => structTerm s
  | .Vector t => .apply "Vector".toList [tagTerm t]
  | .U8 => .apply "U8".toList []
  | .U64 => .apply "U64".toList []
  | .U128 => .apply "U128".toList []
  | .Address => .apply "Address".toList []
  | .Signer => .apply "Signer".toList []
  | .Bool => .apply "Bool".toList []

def structTerm : StructTag → Term Char
  | ⟨address, module, name, typeParams⟩ => .apply (structHead d address module name) (tagTerms typeParams)

def tagTerms : List TypeTag → List (Term Char)
  | [] => []
  | t :: ts => tagTerm t :: tagTerms ts

end

theorem print_word (w : Text) : (Term.apply w []).print tagMarks = w := List.append_nil w

theorem formatTypeTag_vector (t : TypeTag) : formatTypeTag d (.Vector t) =
    "Vector<".toList ++ formatTypeTag d t ++ ">".toList := rfl

theorem formatTypeParams_cons (t : TypeTag) (ts : List TypeTag) : formatTypeParams d (t :: ts) =
    "<".toList ++ formatTypeTag d t ++ formatMoreParams d ts ++ ">".toList := rfl

theorem formatMoreParams_cons (t : TypeTag) (ts : List TypeTag) : formatMoreParams d (t :: ts) =
    ", ".toList ++ formatTypeTag d t ++ formatMoreParams d ts := rfl

mutual

/-- A tag is printed as its term is. -/
theorem formatTypeTag_eq : ∀ t, formatTypeTag d t = (tagTerm d t).print tagMarks
  | .Struct s => formatStructTag_eq s
  | .Vector t => by
    have hopen : "Vector<".toList = "Vector".toList ++ ['<'] := by decide
    rw [formatTypeTag_vector, formatTypeTag_eq t, hopen, tagTerm, Term.print, Term.printArgs,
      Term.printMore, List.append_nil]
    simp only [List.append_assoc]
    rfl
  | .U8 => (print_word _).symm
  | .U64 => (print_word _).symm
  | .U128 => (print_word _).symm
  | .Address => (print_word _).symm
  | .Signer => (print_word _).symm
  | .Bool => (print_word _).symm

theorem formatStructTag_eq : ∀ s, formatStructTag d s = (structTerm d s).print tagMarks
  | ⟨address, module, name, typeParams⟩ => by
    rw [formatStructTag, structTerm, Term.print, structHead, formatTypeParams_eq typeParams]
    simp only [List.append_assoc]

theorem formatTypeParams_eq : ∀ ts, formatTypeParams d ts = Term.printArgs tagMarks (tagTerms d ts)
  | [] => rfl
  | t :: ts => by
    rw [formatTypeParams_cons, tagTerms, Term.printArgs, formatTypeTag_eq t, formatMoreParams_eq ts]
    simp only [List.append_assoc]
    rfl

theorem formatMoreParams_eq : ∀ ts, formatMoreParams d ts = Term.printMore tagMarks (tagTerms d ts)
  | [] => rfl
  | t :: ts => by
    rw [formatMoreParams_cons, tagTerms, Term.printMore, formatTypeTag_eq t, formatMoreParams_eq ts]
    simp only [List.append_assoc]
    rfl

end

end

section
variable {vm : MoveVm} {d : Display vm} {size : ℕ} (hd : d.Documented size)
include hd

end

section
variable {vm : MoveVm} (d : Display vm) (size : ℕ) (effects : vm.Effects)

end

section
variable {vm : MoveVm} {d : Display vm} {size : ℕ} {effects effects' : vm.Effects}
  {state state' : FakeRemoteCache} {explained explained' : ExplainedTransactionEffects}

end

end MoveTools.Executor.WriteSet
