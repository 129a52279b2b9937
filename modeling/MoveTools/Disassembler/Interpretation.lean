import MoveTools.Disassembler.Translator
import MoveTools.Disassembler.StackMachine
import MoveTools.Library.Simulation

namespace MoveTools.Disassembler

open Attempt Simulation

/-! What bytecode and what expressions mean, each on its own, over any meaning of the operations. -/

inductive Head where
  | Abort
  | Ld (ld : Ld)
  | Local (access : LocAccess) (loc : Local)
  | Cast (ty : CastType)
  | BinaryOp (sign : Op)
  | Not
  | FnCall (callee : Callee)
  | Let (loc : Local)
  | Pack (name : StructName) (typeParams : List FType) (fields : List String)
  | Unpack (name : StructName) (typeParams : List FType) (fields : List String)
  | Ret
  | FieldRef (isMut : Bool) (fieldName : String)
  | Ref (isMut : Bool) (loc : Local)
  | Deref
  | WriteRef
  deriving DecidableEq, Repr

section
variable (f : Function)

def MoveValue.byte : MoveValue → Option UInt8
  | .U8 val => some val
  | _ => none

def Function.literal (index : ℕ) : Option Ld :=
  match f.unit.constant index with
  | some (.Address bytes) => some (.Address bytes)
  | some (.Vector values) => (values.mapM MoveValue.byte).map .Vector
  | _ => none

def Function.call (handle : ℕ) (typeParams : Option ℕ) : Head :=
  .FnCall (.Plain (f.unit.functionHandle handle).module (f.unit.functionHandle handle).name
    (typeArguments f typeParams))

def Function.buildIn (kind : BuildIn) (index : ℕ) (typeParams : Option ℕ) : Option Head :=
  (f.unit.structDef index).map fun d =>
    .FnCall (.BuildIn kind ⟨d.name, d.module⟩ (typeArguments f typeParams))

def Function.buildInGeneric (kind : BuildIn) (index : ℕ) : Option Head :=
  (f.unit.structDefInstantiation index).bind fun inst =>
    f.buildIn kind inst.handle (some inst.typeParameters)

/-- A struct's values are put together or taken apart. -/
def Function.structHead (make : StructName → List FType → List String → Head) (index : ℕ)
    (typeParams : Option ℕ) : Option Head :=
  (f.unit.structDef index).bind fun d =>
    d.fields.map fun names => make ⟨d.name, d.module⟩ (typeArguments f typeParams) names

def Function.structHeadGeneric (make : StructName → List FType → List String → Head)
    (index : ℕ) : Option Head :=
  (f.unit.structDefInstantiation index).bind fun inst =>
    f.structHead make inst.handle (some inst.typeParameters)

def Function.fieldHead (isMut : Bool) (index : ℕ) : Option Head :=
  (f.unit.fieldHandle index).bind fun field =>
    (f.unit.structDef field.owner).bind fun d =>
      d.fields.bind fun names => names[field.field]?.map (.FieldRef isMut)

def Function.fieldHeadGeneric (isMut : Bool) (index : ℕ) : Option Head :=
  (f.unit.fieldInstantiation index).bind fun inst => f.fieldHead isMut inst.handle

/-- What an instruction does with the values it pops. The others only move along the stack or the
code. -/
def Function.head : Bytecode → Option Head
  | .Pop | .Nop | .FreezeRef | .BrTrue _ | .BrFalse _ | .Branch _ => none
  | .Ret => some .Ret
  | .Abort => some .Abort
  | .Not => some .Not
  | .ReadRef => some .Deref
  | .WriteRef => some .WriteRef
  | .Add => some (.BinaryOp .Add)
  | .Sub => some (.BinaryOp .Sub)
  | .Mul => some (.BinaryOp .Mul)
  | .Mod => some (.BinaryOp .Mod)
  | .Div => some (.BinaryOp .Div)
  | .BitOr => some (.BinaryOp .BitOr)
  | .BitAnd => some (.BinaryOp .BitAnd)
  | .Xor => some (.BinaryOp .Xor)
  | .Or => some (.BinaryOp .Or)
  | .And => some (.BinaryOp .And)
  | .Eq => some (.BinaryOp .Eq)
  | .Neq => some (.BinaryOp .Neq)
  | .Lt => some (.BinaryOp .Lt)
  | .Gt => some (.BinaryOp .Gt)
  | .Le => some (.BinaryOp .Le)
  | .Ge => some (.BinaryOp .Ge)
  | .Shl => some (.BinaryOp .Shl)
  | .Shr => some (.BinaryOp .Shr)
  | .CastU8 => some (.Cast .U8)
  | .CastU64 => some (.Cast .U64)
  | .CastU128 => some (.Cast .U128)
  | .LdU8 val => some (.Ld (.U8 val))
  | .LdU64 val => some (.Ld (.U64 val))
  | .LdU128 val => some (.Ld (.U128 val))
  | .LdConst index => (f.literal index).map .Ld
  | .LdTrue => some (.Ld (.Bool true))
  | .LdFalse => some (.Ld (.Bool false))
  | .CopyLoc index => f.locals[index]?.map (.Local .Copy)
  | .MoveLoc index => f.locals[index]?.map (.Local .Move)
  | .StLoc index => f.locals[index]?.map .Let
  | .MutBorrowLoc index => f.locals[index]?.map (.Ref true)
  | .ImmBorrowLoc index => f.locals[index]?.map (.Ref false)
  | .Call handle => some (f.call handle none)
  | .CallGeneric index =>
    let inst := f.unit.functionInstantiation index
    some (f.call inst.handle (some inst.typeParameters))
  | .Exists index => f.buildIn .Exists index none
  | .ExistsGeneric index => f.buildInGeneric .Exists index
  | .MoveFrom index => f.buildIn .MoveFrom index none
  | .MoveFromGeneric index => f.buildInGeneric .MoveFrom index
  | .MoveTo index => f.buildIn .MoveTo index none
  | .MoveToGeneric index => f.buildInGeneric .MoveTo index
  | .ImmBorrowGlobal index => f.buildIn .BorrowGlobal index none
  | .ImmBorrowGlobalGeneric index => f.buildInGeneric .BorrowGlobal index
  | .MutBorrowGlobal index => f.buildIn .BorrowGlobalMut index none
  | .MutBorrowGlobalGeneric index => f.buildInGeneric .BorrowGlobalMut index
  | .Pack index => f.structHead .Pack index none
  | .PackGeneric index => f.structHeadGeneric .Pack index
  | .Unpack index => f.structHead .Unpack index none
  | .UnpackGeneric index => f.structHeadGeneric .Unpack index
  | .MutBorrowField index => f.fieldHead true index
  | .MutBorrowFieldGeneric index => f.fieldHeadGeneric true index
  | .ImmBorrowField index => f.fieldHead false index
  | .ImmBorrowFieldGeneric index => f.fieldHeadGeneric false index

/-- A meaning of the operations of a unit over values `V` and a state `σ`: the locals and the global
storage. An operation may end the run with an `ε`, as an abort and a return do; otherwise it gives
as many values as the instruction pushes. -/
structure Interpretation (V σ ε : Type) where
  act : Head → List V → σ → Except ε (List V × σ)
  truth : V → Bool
  pushes : ∀ {opcode head a vs s r}, f.head opcode = some head →
    arity f.unit f.locals.length f.retLen opcode = some a → act head vs s = .ok r →
    r.1.length = a.pushes

end

/-- A run is stuck where a value is missing; it cannot be in code that a compiler makes. -/
inductive Halt (ε : Type) where
  | stuck
  | ended (e : ε)
  deriving DecidableEq, Repr

/-- A run over a state, which may take more fuel than there is. -/
abbrev Program (σ ε α : Type) := StateT σ (Attempt (Halt ε)) α

section
variable {V σ ε α β : Type} {f : Function}

def Program.stuck : Program σ ε α := fun _ => result (.error .stuck)

/-- The state goes from turn to turn. -/
def Program.turnOf : Turn Unit α × σ → Turn σ (α × σ)
  | (.leave a, s) => .leave (a, s)
  | (.again _, s) => .again s

/-- `while`, where every turn may use all the fuel itself. -/
def Program.loop (body : Program σ ε (Turn Unit α)) (fuel : ℕ) : Program σ ε α :=
  Attempt.loop (fun s => body s >>= fun r => pure (turnOf r)) fuel

namespace Interpretation

variable (I : Interpretation f V σ ε)

def perform (head : Head) (vs : List V) : Program σ ε (List V) := fun s =>
  match I.act head vs s with
  | .ok r => result (.ok r)
  | .error e => result (.error (.ended e))

/-- One instruction that does not jump; the stack has its top first. -/
def step (opcode : Bytecode) (stack : List V) : Program σ ε (List V) :=
  match opcode, stack with
  | .Nop, stack => pure stack
  | .Pop, _ :: stack => pure stack
  | .FreezeRef, v :: stack => pure (v :: stack)
  | opcode, stack =>
    match f.head opcode, arity f.unit f.locals.length f.retLen opcode with
    | some head, some a =>
      if a.pops ≤ stack.length then
        I.perform head (stack.take a.pops).reverse >>= fun vs =>
          pure (vs.reverse ++ stack.drop a.pops)
      else .stuck
    | _, _ => .stuck

def exec : List Bytecode → List V → Program σ ε (List V)
  | [], stack => pure stack
  | opcode :: code, stack => I.step opcode stack >>= exec code

end Interpretation

/-- A state of the machine. -/
structure Config (V σ : Type) where
  pc : ℕ
  stack : List V
  state : σ

namespace Interpretation

variable (I : Interpretation f V σ ε)

/-- Of a jump that is taken if the value on top has the given truth. -/
def jumpIf (truth : Bool) (target : ℕ) (c : Config V σ) :
    Attempt (Halt ε) (Turn (Config V σ) (List V × σ)) :=
  match c.stack with
  | v :: stack =>
    pure (.again ⟨if I.truth v = truth then target else c.pc + 1, stack, c.state⟩)
  | [] => result (.error .stuck)

/-- The run ends behind the last instruction. -/
def turn (code : List Bytecode) (c : Config V σ) :
    Attempt (Halt ε) (Turn (Config V σ) (List V × σ)) :=
  match code[c.pc]? with
  | none => pure (.leave (c.stack, c.state))
  | some (.Branch target) => pure (.again { c with pc := target })
  | some (.BrTrue target) => I.jumpIf true target c
  | some (.BrFalse target) => I.jumpIf false target c
  | some opcode => I.step opcode c.stack c.state >>= fun r => pure (.again ⟨c.pc + 1, r.1, r.2⟩)

/-- The machine, from its first instruction on an empty stack. -/
def run (code : List Bytecode) (fuel : ℕ) (s : σ) : Attempt (Halt ε) (List V × σ) :=
  Attempt.loop (I.turn code) fuel ⟨0, [], s⟩

def single : List V → Program σ ε V
  | [v] => pure v
  | _ => .stuck

def bindField (field : ExpLoc) (v : V) : Program σ ε Unit :=
  match field with
  | .mk _ (.Let loc _) => I.perform (.Let loc) [v] >>= fun _ => pure ()
  | _ => pure ()

def bindFields : List ExpLoc → List V → Program σ ε Unit
  | field :: fields, v :: vs => I.bindField field v >>= fun _ => bindFields fields vs
  | _, _ => pure ()

section
variable (fuel : ℕ)

mutual

/-- Operands are evaluated from left to right. The fields of a struct that is taken apart are stored
from the last one on. A `continue` outside of what is restored as a loop means nothing. -/
def eval : Exp → Program σ ε (List V)
  | .Abort e => do I.perform .Abort [← value e]
  | .Ld ld => I.perform (.Ld ld) []
  | .Error _ => .stuck
  | .Local _ access loc => I.perform (.Local access loc) []
  | .Cast e ty => do I.perform (.Cast ty) [← value e]
  | .BinaryOp left sign right => do
    let v ← value left
    let w ← value right
    I.perform (.BinaryOp sign) [v, w]
  | .Basket inner => evalLoc inner
  | .Not e => do I.perform .Not [← value e]
  | .FnCall callee params => do I.perform (.FnCall callee) (← values params)
  | .Let loc e => do I.perform (.Let loc) [← value e]
  | .Pack name typeParams fields => do
    I.perform (.Pack name typeParams (fields.map PackField.name)) (← fieldValues fields)
  | .Unpack name typeParams fields source => do
    let v ← value source
    let vs ← I.perform (.Unpack name typeParams (fields.map PackField.name)) [v]
    I.bindFields (fields.map PackField.value).reverse vs.reverse
    return []
  | .Ret retList _ => do I.perform .Ret (← values retList)
  | .FieldRef isMut fieldName inst => do I.perform (.FieldRef isMut fieldName) [← value inst]
  | .Ref isMut loc => I.perform (.Ref isMut loc) []
  | .Deref e => do I.perform .Deref [← value e]
  | .WriteRef val valRef => do
    let v ← value val
    let w ← value valRef
    I.perform .WriteRef [v, w]
  | .While condition body => do
    Program.loop (do
      let v ← value condition
      if I.truth v then
        evalBlock body
        return .again ()
      else return .leave ()) fuel
    return []
  | .If condition trueBranch none => do
    let v ← value condition
    if I.truth v then evalBlock trueBranch
    return []
  | .If condition trueBranch (some falseBranch) => do
    let v ← value condition
    if I.truth v then evalBlock trueBranch else evalBlock falseBranch
    return []
  | .Nop => return []
  | .Loop _ | .Break | .Continue => .stuck

def evalLoc : ExpLoc → Program σ ε (List V)
  | .mk _ e => eval e

def value : ExpLoc → Program σ ε V
  | .mk _ e => eval e >>= single

def values : List ExpLoc → Program σ ε (List V)
  | [] => return []
  | e :: es => do
    let v ← value e
    let vs ← values es
    return v :: vs

def fieldValues : List PackField → Program σ ε (List V)
  | [] => return []
  | .mk _ e :: fields => do
    let v ← value e
    let vs ← fieldValues fields
    return v :: vs

def evalBlock : Block → Program σ ε Unit
  | .mk exp _ => statements exp

def statements : List ExpLoc → Program σ ε Unit
  | [] => return ()
  | e :: es => do
    let _ ← evalLoc e
    statements es

end

end

end Interpretation

end

end MoveTools.Disassembler
