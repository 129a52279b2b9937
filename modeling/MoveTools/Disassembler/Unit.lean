import Mathlib.Data.Nat.Basic

namespace MoveTools.Disassembler

inductive Bytecode where
  | Pop | Ret
  | BrTrue (offset : ℕ) | BrFalse (offset : ℕ) | Branch (offset : ℕ)
  | LdU8 (val : ℕ) | LdU64 (val : ℕ) | LdU128 (val : ℕ)
  | CastU8 | CastU64 | CastU128
  | LdConst (index : ℕ) | LdTrue | LdFalse
  | CopyLoc (index : ℕ) | MoveLoc (index : ℕ) | StLoc (index : ℕ)
  | MutBorrowLoc (index : ℕ) | ImmBorrowLoc (index : ℕ)
  | MutBorrowField (index : ℕ) | MutBorrowFieldGeneric (index : ℕ)
  | ImmBorrowField (index : ℕ) | ImmBorrowFieldGeneric (index : ℕ)
  | Call (index : ℕ) | CallGeneric (index : ℕ)
  | Pack (index : ℕ) | PackGeneric (index : ℕ)
  | Unpack (index : ℕ) | UnpackGeneric (index : ℕ)
  | ReadRef | WriteRef | FreezeRef
  | MutBorrowGlobal (index : ℕ) | MutBorrowGlobalGeneric (index : ℕ)
  | ImmBorrowGlobal (index : ℕ) | ImmBorrowGlobalGeneric (index : ℕ)
  | Add | Sub | Mul | Mod | Div | BitOr | BitAnd | Xor | Or | And | Not
  | Eq | Neq | Lt | Gt | Le | Ge
  | Abort | Nop
  | Exists (index : ℕ) | ExistsGeneric (index : ℕ)
  | MoveFrom (index : ℕ) | MoveFromGeneric (index : ℕ)
  | MoveTo (index : ℕ) | MoveToGeneric (index : ℕ)
  | Shl | Shr
  deriving DecidableEq, Repr

/-- `Bytecode::offset`: the target of a branch. -/
def Bytecode.offset : Bytecode → Option ℕ
  | BrTrue offset => some offset
  | BrFalse offset => some offset
  | Branch offset => some offset
  | _ => none

inductive Import where
  | Name (name : String)
  | Alias (name : String) (id : ℕ)
  deriving DecidableEq, Repr

/-- A printed type. -/
abbrev FType := String

inductive MoveValue where
  | U8 (val : UInt8) | U64 (val : ℕ) | U128 (val : ℕ) | Bool (val : Bool)
  | Address (bytes : List UInt8)
  | Vector (values : List MoveValue)

structure FunctionHandle where
  module : Option Import
  name : String
  parameters : ℕ
  returns : ℕ
  deriving DecidableEq, Repr

/-- A struct definition with its handle; the fields of a native struct are not declared. -/
structure StructDef where
  module : Option Import
  name : String
  fields : Option (List String)
  deriving DecidableEq, Repr

structure FieldHandle where
  owner : ℕ
  field : ℕ
  deriving DecidableEq, Repr

/-- An instantiation: the index of the generic entity, and of the signature of its arguments. -/
structure Instantiation where
  handle : ℕ
  typeParameters : ℕ
  deriving DecidableEq, Repr

/-- The tables of a unit, as the translator reads them. A script has no definitions of structs. -/
structure UnitAccess where
  functionHandle : ℕ → FunctionHandle
  functionInstantiation : ℕ → Instantiation
  structDef : ℕ → Option StructDef
  structDefInstantiation : ℕ → Option Instantiation
  fieldHandle : ℕ → Option FieldHandle
  fieldInstantiation : ℕ → Option Instantiation
  constant : ℕ → Option MoveValue
  extractSignature : ℕ → List FType

end MoveTools.Disassembler
