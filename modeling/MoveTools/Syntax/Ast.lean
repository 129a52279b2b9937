import Mathlib.Data.List.Basic

namespace MoveTools.Syntax

/-! The syntax tree of Move's parser (`move_lang::parser::ast`), without locations, and without
the contents of specifications. -/

/-- The bytes of an address. -/
abbrev Address := List UInt8

structure ModuleIdent where
  address : Address
  name : String
  deriving DecidableEq, Repr

set_option linter.dupNamespace false in
inductive ModuleAccess where
  | Name (name : String)
  | ModuleAccess (module name : String)
  | QualifiedModuleAccess (ident : ModuleIdent) (name : String)
  deriving DecidableEq, Repr

inductive Use where
  | Module (ident : ModuleIdent) (alias_ : Option String)
  | Members (ident : ModuleIdent) (members : List (String × Option String))
  deriving DecidableEq, Repr

inductive Typ where
  | Unit
  | Multiple (types : List Typ)
  | Apply (access : ModuleAccess) (args : List Typ)
  | Ref (isMut : Bool) (type : Typ)
  | Fun (args : List Typ) (result : Typ)

mutual

inductive Bind where
  | Var (name : String)
  | Unpack (access : ModuleAccess) (typeArgs : Option (List Typ)) (fields : List FieldBind)

inductive FieldBind where
  | mk (field : String) (bind : Bind)

end

inductive Value where
  | Address (address : Address)
  | U8 (val : ℕ) | U64 (val : ℕ) | U128 (val : ℕ)
  | Bool (val : Bool)
  | HexString (text : String)
  | ByteString (text : String)

mutual

inductive Exp where
  | Value (value : Value)
  | InferredNum (val : ℕ)
  | Move (var : String)
  | Copy (var : String)
  | Name (access : ModuleAccess) (typeArgs : Option (List Typ))
  | Call (access : ModuleAccess) (typeArgs : Option (List Typ)) (args : List Exp)
  | Pack (access : ModuleAccess) (typeArgs : Option (List Typ)) (fields : List FieldExp)
  | IfElse (condition ifTrue : Exp) (ifFalse : Option Exp)
  | While (condition body : Exp)
  | Loop (body : Exp)
  | Block (seq : Sequence)
  | Lambda (binds : List Bind) (body : Exp)
  | ExpList (exps : List Exp)
  | Unit
  | Assign (target value : Exp)
  | Return (value : Option Exp)
  | Abort (code : Exp)
  | Break
  | Continue
  | Dereference (exp : Exp)
  | UnaryExp (exp : Exp)
  | BinopExp (left right : Exp)
  | Borrow (isMut : Bool) (exp : Exp)
  | Dot (exp : Exp) (field : String)
  | Index (exp index : Exp)
  | Cast (exp : Exp) (type : Typ)
  | Annotate (exp : Exp) (type : Typ)
  | Spec
  | UnresolvedError

inductive FieldExp where
  | mk (field : String) (exp : Exp)

inductive SequenceItem where
  | Seq (exp : Exp)
  | Declare (binds : List Bind) (type : Option Typ)
  | Bind (binds : List Bind) (type : Option Typ) (exp : Exp)

inductive Sequence where
  | mk (uses : List Use) (items : List SequenceItem) (last : Option Exp)

end

structure Constant where
  name : String
  signature : Typ
  value : Exp

structure FunctionSignature where
  typeParameters : List String
  parameters : List (String × Typ)
  returnType : Typ

inductive FunctionBody where
  | Defined (seq : Sequence)
  | Native

structure Function where
  name : String
  signature : FunctionSignature
  body : FunctionBody

inductive StructFields where
  | Defined (fields : List (String × Typ))
  | Native

structure StructDefinition where
  name : String
  fields : StructFields

inductive ModuleMember where
  | Function (function : Function)
  | Struct (struct : StructDefinition)
  | Use (use : Use)
  | Constant (constant : Constant)
  | Spec

structure ModuleDefinition where
  name : String
  members : List ModuleMember

structure Script where
  uses : List Use
  constants : List Constant
  function : Function

inductive Definition where
  | Module (module : ModuleDefinition)
  | Address (address : Address) (modules : List ModuleDefinition)
  | Script (script : Script)

end MoveTools.Syntax
