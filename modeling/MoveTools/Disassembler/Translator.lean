import MoveTools.Disassembler.Exp
import Mathlib.Data.List.Basic

namespace MoveTools.Disassembler

/-- A run that does not give a result: a panic (an index or a subtraction out of range), or no
fuel left. -/
inductive Stop where
  | panic
  | outOfFuel
  deriving DecidableEq, Repr

structure Function where
  unit : UnitAccess
  code : List Bytecode
  locals : List Local
  retLen : ℕ

/-- An expression and the operands that were taken from the list for it. -/
structure Built where
  operands : List ExpLoc
  exp : Exp

structure Record where
  offset : ℕ
  operands : List ExpLoc
  loc : ExpLoc

/-- The iterator is the code it has not given out yet, and the index of the last instruction it
gave. `built` is a log that the source does not keep: all that was built, in order. -/
structure Translator where
  expressions : List ExpLoc
  rest : List Bytecode
  position : Option ℕ
  endOffset : ℕ
  used : List Local
  built : List Record

abbrev Step := Except Stop (Built × Translator)

abbrev BlockStep := Except Stop (List ExpLoc × Translator)

/-- `usize` subtraction -/
def usub (a b : ℕ) : Except Stop ℕ := if b ≤ a then .ok (a - b) else .error .panic

namespace Translator

/-- `BytecodeIterator::index` -/
def opcodeOffset (t : Translator) : ℕ := t.position.getD 0

/-- `BytecodeIterator::next`: the index moves even at the end of the code. -/
def nextOpcode (t : Translator) : Option Bytecode × Translator :=
  let position := match t.position with
    | some index => some (index + 1)
    | none => some 0
  match t.rest with
  | [] => (none, { t with position })
  | opcode :: rest => (some opcode, { t with position, rest })

def loc (t : Translator) (exp : Exp) : ExpLoc := .mk t.opcodeOffset exp

def lastExp (t : Translator) : Option ExpLoc := t.expressions.getLast?

def popExp (t : Translator) : ExpLoc × Translator :=
  match t.expressions.getLast? with
  | some e => (e, { t with expressions := t.expressions.dropLast })
  | none => (.mk 0 .Nop, t)

/-- The two last expressions, in the order in which they were pushed. -/
def pop2Exp (t : Translator) : ExpLoc × ExpLoc × Translator :=
  let (second, t) := t.popExp
  let (first, t) := t.popExp
  (first, second, t)

def popExpVec (t : Translator) (expCount : ℕ) : List ExpLoc × Translator :=
  let len := t.expressions.length
  if expCount > len then
    (t.expressions ++ List.replicate (expCount - len) (t.loc .Nop), { t with expressions := [] })
  else
    (t.expressions.drop (len - expCount),
      { t with expressions := t.expressions.take (len - expCount) })

/-- `(0..count).map(|_| ctx.pop_exp())`: the last expression first. -/
def popExpTimes : ℕ → Translator → List ExpLoc × Translator
  | 0, t => ([], t)
  | n + 1, t =>
    let (e, t) := t.popExp
    let (es, t) := popExpTimes n t
    (e :: es, t)

def markAsUsed (t : Translator) (l : Local) : Translator := { t with used := t.used ++ [l] }

end Translator

section
variable (f : Function)

def localVar (index : ℕ) : Except Stop Local :=
  match f.locals[index]? with
  | some l => .ok l
  | none => .error .panic

/-- `opcode_by_absolute_offset` -/
def opcodeAt (offset : ℕ) : Bytecode := f.code[offset]?.getD .Nop

def err (t : Translator) : Built := ⟨[], .Error (opcodeAt f t.opcodeOffset)⟩

def typeArguments (typeParams : Option ℕ) : List FType :=
  (typeParams.map f.unit.extractSignature).getD []

def popUnary (make : ExpLoc → Exp) (t : Translator) : Built × Translator :=
  let (e, t) := t.popExp
  (⟨[e], make e⟩, t)

def Abort.exp : Translator → Built × Translator := popUnary .Abort

def Not.exp : Translator → Built × Translator := popUnary .Not

def Cast.exp (ty : CastType) : Translator → Built × Translator := popUnary (.Cast · ty)

def Deref.exp : Translator → Built × Translator := popUnary .Deref

def freezeRef : Translator → Built × Translator := popUnary ExpLoc.val

def basket (e : ExpLoc) : ExpLoc :=
  match e.val with
  | .BinaryOp _ _ _ => .mk e.index (.Basket e)
  | _ => e

def BinaryOp.exp (sign : Op) (t : Translator) : Built × Translator :=
  let (left, right, t) := t.pop2Exp
  (⟨[left, right], .BinaryOp (basket left) sign (basket right)⟩, t)

def WriteRef.exp (t : Translator) : Built × Translator :=
  let (val, valRef, t) := t.pop2Exp
  (⟨[val, valRef], .WriteRef val valRef⟩, t)

def Ret.exp (retLen : ℕ) (t : Translator) : Built × Translator :=
  let (params, t) := t.popExpTimes retLen
  (⟨params.reverse, .Ret params.reverse false⟩, t)

def Ld.exp (ld : Ld) (t : Translator) : Built × Translator := (⟨[], .Ld ld⟩, t)

/-- Only addresses and vectors of bytes are restored. -/
def Ld.ldConst (index : ℕ) (t : Translator) : Built × Translator :=
  let byte : MoveValue → Option UInt8 := fun
    | .U8 val => some val
    | _ => none
  match f.unit.constant index with
  | some (.Address bytes) => (⟨[], .Ld (.Address bytes)⟩, t)
  | some (.Vector values) =>
    match values.mapM byte with
    | some bytes => (⟨[], .Ld (.Vector bytes)⟩, t)
    | none => (⟨[], .Error (.LdConst index)⟩, t)
  | _ => (⟨[], .Error (.LdConst index)⟩, t)

def Loc.exp (explicitKeyword : Bool) (access : LocAccess) (index : ℕ) (t : Translator) :
    Step := do
  let l ← localVar f index
  return (⟨[], .Local explicitKeyword access l⟩, t.markAsUsed l)

def Ref.exp (index : ℕ) (isMut : Bool) (t : Translator) : Step := do
  let l ← localVar f index
  return (⟨[], .Ref isMut l⟩, t.markAsUsed l)

/-- After another `Let` nothing is taken: that is how the fields of an `Unpack` are stored. -/
def letOperand (t : Translator) : ExpLoc × Translator :=
  match t.lastExp with
  | some e =>
    match e.val with
    | .Let _ _ => (t.loc .Nop, t)
    | _ => t.popExp
  | none => (t.loc .Nop, t)

def Let.exp (index : ℕ) (t : Translator) : Step := do
  let l ← localVar f index
  let (e, t) := letOperand t
  return (⟨[e], .Let l e⟩, t)

def FnCall.plain (handle : ℕ) (typeParams : Option ℕ) (t : Translator) : Built × Translator :=
  let handler := f.unit.functionHandle handle
  let (params, t) := t.popExpVec handler.parameters
  (⟨params, .FnCall (.Plain handler.module handler.name (typeArguments f typeParams)) params⟩, t)

def FnCall.buildIn (kind : BuildIn) (index : ℕ) (typeParams : Option ℕ) (t : Translator) :
    Built × Translator :=
  match f.unit.structDef index with
  | some d =>
    let (params, t) := t.popExpVec kind.parametersCount
    (⟨params, .FnCall (.BuildIn kind ⟨d.name, d.module⟩ (typeArguments f typeParams)) params⟩, t)
  | none => (err f t, t)

def FnCall.buildInGeneric (index : ℕ) (kind : BuildIn) (opcode : Bytecode) (t : Translator) :
    Built × Translator :=
  match f.unit.structDefInstantiation index with
  | some d => FnCall.buildIn f kind d.handle (some d.typeParameters) t
  | none => (⟨[], .Error opcode⟩, t)

def packFields (d : StructDef) (t : Translator) : List ExpLoc × List PackField × Translator :=
  match d.fields with
  | none => ([], [], t)
  | some names =>
    let (values, t) := t.popExpVec names.length
    (values, List.zipWith PackField.mk names values, t)

def Pack.exp (index : ℕ) (typeParams : Option ℕ) (t : Translator) : Built × Translator :=
  match f.unit.structDef index with
  | some d =>
    let (values, fields, t) := packFields d t
    (⟨values, .Pack ⟨d.name, d.module⟩ (typeArguments f typeParams) fields⟩, t)
  | none => (⟨[], .Error (.Pack index)⟩, t)

def FieldRef.exp (index : ℕ) (isMut : Bool) (t : Translator) : Built × Translator :=
  match (f.unit.fieldHandle index).bind fun field =>
      (f.unit.structDef field.owner).map fun d => (field, d) with
  | some (field, d) =>
    match d.fields with
    | some names =>
      match names[field.field]? with
      | some name => popUnary (.FieldRef isMut name) t
      | none => (⟨[], .Nop⟩, t)
    | none => (⟨[], .Nop⟩, t)
  | none => (err f t, t)

section
variable (translateBlock : ℕ → Translator → BlockStep)

/-- The instructions behind the `Unpack`, one for each field, are translated on their own; their
expressions, the last one first, become the values of the fields. -/
def Unpack.exp (index : ℕ) (typeParams : Option ℕ) (t : Translator) : Step := do
  match f.unit.structDef index with
  | some d =>
    let names := d.fields.getD []
    let (block, t) ← translateBlock names.length t
    let missing ← usub names.length block.length
    let values := block.reverse ++ List.replicate missing (t.loc .Nop)
    let fields := List.zipWith PackField.mk names values
    let (source, t) := t.popExp
    return (⟨[source], .Unpack ⟨d.name, d.module⟩ (typeArguments f typeParams) fields source⟩, t)
  | none => return (err f t, t)

def br (offset : ℕ) (t : Translator) : Built × Translator :=
  if offset > t.opcodeOffset then (⟨[], .Nop⟩, t) else (⟨[], .Continue⟩, t)

/-- A conditional jump that no `Branch` follows. -/
def brTrueAlone (trueOffset : ℕ) (t : Translator) : Step := do
  if t.opcodeOffset = t.endOffset then
    return popUnary (fun c => .If c (.mk [] true) none) t
  else
    let distance ← usub trueOffset t.opcodeOffset
    let falseBranchLen ← usub distance 1
    let (block, t) ← translateBlock falseBranchLen t
    let falseBranch := if block.isEmpty then none else some (Block.mk block true)
    let (block, t) ← translateBlock t.rest.length t
    return popUnary (fun c => .If c (.mk block true) falseBranch) t

def falseBranchOf (falseOffsetStart : ℕ) (falseOffsetEnd : Option ℕ) (t : Translator) :
    Except Stop (Option Block × Translator) := do
  match falseOffsetEnd with
  | some stop =>
    if falseOffsetStart < t.opcodeOffset then
      return (some (.mk [t.loc .Continue] true), t)
    else
      let branchLen ← usub stop falseOffsetStart
      if branchLen = 0 then return (none, t)
      else
        let (block, t) ← translateBlock branchLen t
        return (if block.isEmpty then none else some (.mk block true), t)
  | none => return (none, t)

/-- The block of the true branch ends with the jump over the false branch, with a jump back to the
condition, or with a return. -/
def brTrueBranch (trueOffset falseOffsetStart : ℕ) (t : Translator) : Step := do
  if trueOffset < t.opcodeOffset then
    let trueBranch := [t.loc .Continue]
    return popUnary (fun c => .If c (.mk trueBranch true) none) t
  else
    let branchLen ← usub falseOffsetStart trueOffset
    let (block, t) ← translateBlock branchLen t
    let finish (block : List ExpLoc) (falseOffsetEnd : Option ℕ) : Step := do
      let (falseBranch, t) ← falseBranchOf translateBlock falseOffsetStart falseOffsetEnd t
      return popUnary (fun c => .If c (.mk block true) falseBranch) t
    match block.getLast? with
    | some (.mk index (.Ret retList _)) =>
      finish (block.dropLast ++ [.mk index (.Ret retList true)]) none
    | some (.mk _ .Continue) =>
      match (opcodeAt f t.opcodeOffset).offset, t.lastExp with
      | some offset, some last =>
        if last.range.1 = offset then
          return popUnary (fun c => .While c (.mk block.dropLast true)) t
        else finish block none
      | _, _ => finish block none
    | some (.mk _ .Nop) =>
      match opcodeAt f t.opcodeOffset with
      | .Branch offset => finish block (if offset > t.opcodeOffset then some offset else none)
      | _ => finish block none
    | _ => finish block none

def brTrue (trueOffset : ℕ) (t : Translator) : Step :=
  match opcodeAt f (t.opcodeOffset + 1) with
  | .Branch falseOffset => brTrueBranch f translateBlock trueOffset falseOffset t.nextOpcode.2
  | _ => brTrueAlone translateBlock trueOffset t

def brFalse (index : ℕ) (t : Translator) : Built × Translator := (⟨[], .Error (.BrFalse index)⟩, t)

def nextExp (opcode : Bytecode) (t : Translator) : Step :=
  match opcode with
  | .Pop => .ok (⟨[], .Nop⟩, t)
  | .Not => .ok (Not.exp t)
  | .Abort => .ok (Abort.exp t)
  | .Add => .ok (BinaryOp.exp .Add t)
  | .Sub => .ok (BinaryOp.exp .Sub t)
  | .Mul => .ok (BinaryOp.exp .Mul t)
  | .Mod => .ok (BinaryOp.exp .Mod t)
  | .Div => .ok (BinaryOp.exp .Div t)
  | .BitOr => .ok (BinaryOp.exp .BitOr t)
  | .BitAnd => .ok (BinaryOp.exp .BitAnd t)
  | .Xor => .ok (BinaryOp.exp .Xor t)
  | .Or => .ok (BinaryOp.exp .Or t)
  | .And => .ok (BinaryOp.exp .And t)
  | .Eq => .ok (BinaryOp.exp .Eq t)
  | .Neq => .ok (BinaryOp.exp .Neq t)
  | .Lt => .ok (BinaryOp.exp .Lt t)
  | .Gt => .ok (BinaryOp.exp .Gt t)
  | .Le => .ok (BinaryOp.exp .Le t)
  | .Ge => .ok (BinaryOp.exp .Ge t)
  | .Shl => .ok (BinaryOp.exp .Shl t)
  | .Shr => .ok (BinaryOp.exp .Shr t)
  | .Nop => .ok (⟨[], .Nop⟩, t)
  | .Ret => .ok (Ret.exp f.retLen t)
  | .CastU8 => .ok (Cast.exp .U8 t)
  | .CastU64 => .ok (Cast.exp .U64 t)
  | .CastU128 => .ok (Cast.exp .U128 t)
  | .LdU8 val => .ok (Ld.exp (.U8 val) t)
  | .LdU64 val => .ok (Ld.exp (.U64 val) t)
  | .LdU128 val => .ok (Ld.exp (.U128 val) t)
  | .LdConst index => .ok (Ld.ldConst f index t)
  | .LdTrue => .ok (Ld.exp (.Bool true) t)
  | .LdFalse => .ok (Ld.exp (.Bool false) t)
  | .Call index => .ok (FnCall.plain f index none t)
  | .CallGeneric index =>
    let inst := f.unit.functionInstantiation index
    .ok (FnCall.plain f inst.handle (some inst.typeParameters) t)
  | .Exists index => .ok (FnCall.buildIn f .Exists index none t)
  | .ExistsGeneric index => .ok (FnCall.buildInGeneric f index .Exists opcode t)
  | .MoveFrom index => .ok (FnCall.buildIn f .MoveFrom index none t)
  | .MoveFromGeneric index => .ok (FnCall.buildInGeneric f index .MoveFrom opcode t)
  | .MoveTo index => .ok (FnCall.buildIn f .MoveTo index none t)
  | .MoveToGeneric index => .ok (FnCall.buildInGeneric f index .MoveTo opcode t)
  | .ImmBorrowGlobal index => .ok (FnCall.buildIn f .BorrowGlobal index none t)
  | .ImmBorrowGlobalGeneric index => .ok (FnCall.buildInGeneric f index .BorrowGlobal opcode t)
  | .MutBorrowGlobal index => .ok (FnCall.buildIn f .BorrowGlobalMut index none t)
  | .MutBorrowGlobalGeneric index =>
    .ok (FnCall.buildInGeneric f index .BorrowGlobalMut opcode t)
  | .CopyLoc index => Loc.exp f false .Copy index t
  | .MoveLoc index => Loc.exp f false .Move index t
  | .StLoc index => Let.exp f index t
  | .Pack index => .ok (Pack.exp f index none t)
  | .PackGeneric index =>
    match f.unit.structDefInstantiation index with
    | some inst => .ok (Pack.exp f inst.handle (some inst.typeParameters) t)
    | none => .ok (⟨[], .Error opcode⟩, t)
  | .Unpack index => Unpack.exp f translateBlock index none t
  | .UnpackGeneric index =>
    match f.unit.structDefInstantiation index with
    | some inst => Unpack.exp f translateBlock inst.handle (some inst.typeParameters) t
    | none => .ok (⟨[], .Error opcode⟩, t)
  | .MutBorrowField index => .ok (FieldRef.exp f index true t)
  | .MutBorrowFieldGeneric index =>
    match f.unit.fieldInstantiation index with
    | some inst => .ok (FieldRef.exp f inst.handle true t)
    | none => .ok (⟨[], .Error opcode⟩, t)
  | .ImmBorrowField index => .ok (FieldRef.exp f index false t)
  | .ImmBorrowFieldGeneric index =>
    match f.unit.fieldInstantiation index with
    | some inst => .ok (FieldRef.exp f inst.handle false t)
    | none => .ok (⟨[], .Error opcode⟩, t)
  | .FreezeRef => .ok (freezeRef t)
  | .MutBorrowLoc index => Ref.exp f index true t
  | .ImmBorrowLoc index => Ref.exp f index false t
  | .ReadRef => .ok (Deref.exp t)
  | .WriteRef => .ok (WriteRef.exp t)
  | .BrTrue trueOffset => brTrue f translateBlock trueOffset t
  | .BrFalse offset => .ok (brFalse offset t)
  | .Branch offset => .ok (br offset t)

end

/-- A translator for a block of its own, over the same iterator. -/
def blockWith (translate : Translator → Except Stop Translator) (blockSize : ℕ) (t : Translator) :
    BlockStep := do
  let inner ← translate
    { t with expressions := [], endOffset := t.opcodeOffset + blockSize }
  return (inner.expressions,
    { inner with expressions := t.expressions, endOffset := t.endOffset })

def translate : ℕ → Translator → Except Stop Translator
  | 0, _ => .error .outOfFuel
  | fuel + 1, t =>
    if t.endOffset > t.opcodeOffset then
      match t.nextOpcode with
      | (some opcode, t) => do
        let offset := t.opcodeOffset
        let (built, t) ← nextExp f (blockWith (translate fuel)) opcode t
        let e := t.loc built.exp
        translate fuel
          { t with
            expressions := t.expressions ++ [e]
            built := t.built ++ [⟨offset, built.operands, e⟩] }
      | (none, t) => .ok t
    else .ok t

/-- The translator of a whole body, as `Body::new` makes it. -/
def bodyTranslator : Translator where
  expressions := []
  rest := f.code
  position := none
  endOffset := f.code.length
  used := []
  built := []

end

def scriptOf (code : List Bytecode) : Function where
  unit := {
    functionHandle := fun _ => ⟨none, "f", 0, 0⟩
    functionInstantiation := fun _ => ⟨0, 0⟩
    structDef := fun _ => none
    structDefInstantiation := fun _ => none
    fieldHandle := fun _ => none
    fieldInstantiation := fun _ => none
    constant := fun _ => none
    extractSignature := fun _ => [] }
  code := code
  locals := [.Var 0, .Var 1]
  retLen := 0

end MoveTools.Disassembler
