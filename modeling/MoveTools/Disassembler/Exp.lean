import MoveTools.Disassembler.Unit

namespace MoveTools.Disassembler

/-- A parameter or a variable of the function. -/
inductive Local where
  | Param (index : ℕ)
  | Var (index : ℕ)
  deriving DecidableEq, Repr

inductive Op where
  | Add | Sub | Mul | Mod | Div | BitOr | BitAnd | Xor | Or | And
  | Eq | Neq | Lt | Gt | Le | Ge | Shl | Shr
  deriving DecidableEq, Repr

inductive CastType where
  | U8 | U64 | U128
  deriving DecidableEq, Repr

inductive LocAccess where
  | Move | Copy
  deriving DecidableEq, Repr

inductive Ld where
  | U8 (val : ℕ) | U64 (val : ℕ) | U128 (val : ℕ) | Bool (val : Bool)
  | Address (bytes : List UInt8)
  | Vector (bytes : List UInt8)
  deriving DecidableEq, Repr

inductive BuildIn where
  | Exists | MoveFrom | MoveTo | BorrowGlobal | BorrowGlobalMut
  deriving DecidableEq, Repr

def BuildIn.parametersCount : BuildIn → ℕ
  | Exists => 1
  | MoveFrom => 1
  | MoveTo => 2
  | BorrowGlobal => 1
  | BorrowGlobalMut => 1

/-- A name with the import it is found under. -/
structure StructName where
  name : String
  import_ : Option Import
  deriving DecidableEq, Repr

inductive Callee where
  | BuildIn (kind : BuildIn) (typeParamName : StructName) (typeParams : List FType)
  | Plain (module : Option Import) (name : String) (typeParams : List FType)
  deriving DecidableEq, Repr

mutual

inductive Exp where
  | Abort (exp : ExpLoc)
  | Ld (ld : Ld)
  | Error (opcode : Bytecode)
  | Local (explicitKeyword : Bool) (access : LocAccess) (loc : Local)
  | Cast (exp : ExpLoc) (ty : CastType)
  | BinaryOp (left : ExpLoc) (sign : Op) (right : ExpLoc)
  | Basket (inner : ExpLoc)
  | Not (exp : ExpLoc)
  | FnCall (callee : Callee) (params : List ExpLoc)
  | Let (loc : Local) (exp : ExpLoc)
  | Pack (name : StructName) (typeParams : List FType) (fields : List PackField)
  | Unpack (name : StructName) (typeParams : List FType) (fields : List PackField)
      (source : ExpLoc)
  | Ret (retList : List ExpLoc) (explicitKeyword : Bool)
  | FieldRef (isMut : Bool) (fieldName : String) (inst : ExpLoc)
  | Ref (isMut : Bool) (loc : Local)
  | Deref (exp : ExpLoc)
  | WriteRef (val valRef : ExpLoc)
  | Loop (body : Block)
  | While (condition : ExpLoc) (body : Block)
  | If (condition : ExpLoc) (trueBranch : Block) (falseBranch : Option Block)
  | Break | Continue | Nop

/-- An expression with the offset in the bytecode at which it was built. -/
inductive ExpLoc where
  | mk (index : ℕ) (val : Exp)

inductive PackField where
  | mk (name : String) (value : ExpLoc)

inductive Block where
  | mk (exp : List ExpLoc) (basket : Bool)

end

def ExpLoc.index : ExpLoc → ℕ
  | mk index _ => index

def ExpLoc.val : ExpLoc → Exp
  | mk _ val => val

def PackField.name : PackField → String
  | mk name _ => name

def PackField.value : PackField → ExpLoc
  | mk _ value => value

def Block.exp : Block → List ExpLoc
  | mk exp _ => exp

def Block.basket : Block → Bool
  | mk _ basket => basket

def Exp.isNop : Exp → Bool
  | Nop => true
  | _ => false

def joinRange : Option (ℕ × ℕ) → Option (ℕ × ℕ) → Option (ℕ × ℕ)
  | none, r => r
  | r, none => r
  | some (l, r), some (l', r') => some (min l l', max r r')

mutual

def Exp.sourceRange : Exp → Option (ℕ × ℕ)
  | .Abort e => some e.range
  | .Ld _ => none
  | .Error _ => none
  | .Local _ _ _ => none
  | .Cast e _ => some e.range
  | .BinaryOp left _ right => joinRange (some left.range) (some right.range)
  | .Basket e => some e.range
  | .Not e => some e.range
  | .FnCall _ params => findRange params
  | .Let _ e => some e.range
  | .Pack _ _ fields => findFieldRange fields
  | .Unpack _ _ fields _ => findFieldRange fields
  | .Ret retList _ => findRange retList
  | .FieldRef _ _ inst => some inst.range
  | .Ref _ _ => none
  | .Deref e => some e.range
  | .WriteRef val valRef => joinRange (some val.range) (some valRef.range)
  | .Loop body => body.sourceRange
  | .While condition body => joinRange (some condition.range) body.sourceRange
  | .If condition trueBranch none => joinRange (some condition.range) trueBranch.sourceRange
  | .If condition trueBranch (some falseBranch) =>
    joinRange (joinRange (some condition.range) trueBranch.sourceRange) falseBranch.sourceRange
  | .Break => none
  | .Continue => none
  | .Nop => none

def ExpLoc.range : ExpLoc → ℕ × ℕ
  | .mk index val =>
    match val.sourceRange with
    | some (l, r) => (min index l, max index r)
    | none => (index, index)

def Block.sourceRange : Block → Option (ℕ × ℕ)
  | .mk exp _ => findRange exp

def findRange : List ExpLoc → Option (ℕ × ℕ)
  | [] => none
  | e :: es => joinRange (some e.range) (findRange es)

def findFieldRange : List PackField → Option (ℕ × ℕ)
  | [] => none
  | .mk _ value :: fields => joinRange (some value.range) (findFieldRange fields)

end

end MoveTools.Disassembler
