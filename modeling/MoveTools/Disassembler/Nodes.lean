import Mathlib.Algebra.Order.Group.Multiset
import MoveTools.Disassembler.Translator

namespace MoveTools.Disassembler

/-! The nodes of the expressions that a translator has built, with everything nested in them. -/

mutual

def Exp.inside : Exp → List Exp
  | .Abort e => e.nodes
  | .Ld _ => []
  | .Error _ => []
  | .Local _ _ _ => []
  | .Cast e _ => e.nodes
  | .BinaryOp left _ right => left.nodes ++ right.nodes
  | .Basket e => e.nodes
  | .Not e => e.nodes
  | .FnCall _ params => nodesOf params
  | .Let _ e => e.nodes
  | .Pack _ _ fields => fieldNodes fields
  | .Unpack _ _ fields source => fieldNodes fields ++ source.nodes
  | .Ret retList _ => nodesOf retList
  | .FieldRef _ _ inst => inst.nodes
  | .Ref _ _ => []
  | .Deref e => e.nodes
  | .WriteRef val valRef => val.nodes ++ valRef.nodes
  | .Loop body => body.nodes
  | .While condition body => condition.nodes ++ body.nodes
  | .If condition trueBranch none => condition.nodes ++ trueBranch.nodes
  | .If condition trueBranch (some falseBranch) =>
    condition.nodes ++ (trueBranch.nodes ++ falseBranch.nodes)
  | .Break => []
  | .Continue => []
  | .Nop => []

def ExpLoc.nodes : ExpLoc → List Exp
  | .mk _ e => e :: e.inside

def Block.nodes : Block → List Exp
  | .mk exp _ => nodesOf exp

def nodesOf : List ExpLoc → List Exp
  | [] => []
  | e :: es => e.nodes ++ nodesOf es

def fieldNodes : List PackField → List Exp
  | [] => []
  | .mk _ value :: fields => value.nodes ++ fieldNodes fields

end

/-- Put in by the translator, not for an instruction that is counted. -/
def Exp.isFiller : Exp → Bool
  | .Nop | .Continue | .Basket _ => true
  | _ => false

/-- All but the instructions that leave no node of their own. -/
def Bytecode.isCounted : Bytecode → Bool
  | .Pop | .Nop | .FreezeRef | .Branch _ => false
  | _ => true

def Op.ofBytecode : Bytecode → Option Op
  | .Add => some .Add
  | .Sub => some .Sub
  | .Mul => some .Mul
  | .Mod => some .Mod
  | .Div => some .Div
  | .BitOr => some .BitOr
  | .BitAnd => some .BitAnd
  | .Xor => some .Xor
  | .Or => some .Or
  | .And => some .And
  | .Eq => some .Eq
  | .Neq => some .Neq
  | .Lt => some .Lt
  | .Gt => some .Gt
  | .Le => some .Le
  | .Ge => some .Ge
  | .Shl => some .Shl
  | .Shr => some .Shr
  | _ => none

def BuildIn.ofBytecode : Bytecode → Option BuildIn
  | .Exists _ | .ExistsGeneric _ => some .Exists
  | .MoveFrom _ | .MoveFromGeneric _ => some .MoveFrom
  | .MoveTo _ | .MoveToGeneric _ => some .MoveTo
  | .ImmBorrowGlobal _ | .ImmBorrowGlobalGeneric _ => some .BorrowGlobal
  | .MutBorrowGlobal _ | .MutBorrowGlobalGeneric _ => some .BorrowGlobalMut
  | _ => none

/-- The constructors that belong to an instruction. An `Error` belongs to what it carries. -/
def Belongs (opcode : Bytecode) : Exp → Prop
  | .Abort _ => opcode = .Abort
  | .Ld (.U8 val) => opcode = .LdU8 val
  | .Ld (.U64 val) => opcode = .LdU64 val
  | .Ld (.U128 val) => opcode = .LdU128 val
  | .Ld (.Bool val) => opcode = if val then .LdTrue else .LdFalse
  | .Ld (.Address _) | .Ld (.Vector _) => ∃ index, opcode = .LdConst index
  | .Error carried => opcode = carried
  | .Local _ .Copy _ => ∃ index, opcode = .CopyLoc index
  | .Local _ .Move _ => ∃ index, opcode = .MoveLoc index
  | .Cast _ .U8 => opcode = .CastU8
  | .Cast _ .U64 => opcode = .CastU64
  | .Cast _ .U128 => opcode = .CastU128
  | .BinaryOp _ sign _ => Op.ofBytecode opcode = some sign
  | .Not _ => opcode = .Not
  | .FnCall (.BuildIn kind _ _) _ => BuildIn.ofBytecode opcode = some kind
  | .FnCall (.Plain _ _ _) _ => ∃ index, opcode = .Call index ∨ opcode = .CallGeneric index
  | .Let _ _ => ∃ index, opcode = .StLoc index
  | .Pack _ _ _ => ∃ index, opcode = .Pack index ∨ opcode = .PackGeneric index
  | .Unpack _ _ _ _ => ∃ index, opcode = .Unpack index ∨ opcode = .UnpackGeneric index
  | .Ret _ _ => opcode = .Ret
  | .FieldRef true _ _ =>
    ∃ index, opcode = .MutBorrowField index ∨ opcode = .MutBorrowFieldGeneric index
  | .FieldRef false _ _ =>
    ∃ index, opcode = .ImmBorrowField index ∨ opcode = .ImmBorrowFieldGeneric index
  | .Ref true _ => ∃ index, opcode = .MutBorrowLoc index
  | .Ref false _ => ∃ index, opcode = .ImmBorrowLoc index
  | .Deref _ => opcode = .ReadRef
  | .WriteRef _ _ => opcode = .WriteRef
  | .While _ _ | .If _ _ _ => ∃ offset, opcode = .BrTrue offset
  | .Loop _ | .Break | .Continue | .Nop | .Basket _ => False

def weight (es : List ExpLoc) : Multiset Exp := ↑((nodesOf es).filter fun e => !e.isFiller)

/-- The expressions directly below one, those of its blocks included. -/
def Exp.parts : Exp → List ExpLoc
  | .Abort e | .Cast e _ | .Not e | .Let _ e | .FieldRef _ _ e | .Deref e | .Basket e => [e]
  | .BinaryOp left _ right => [left, right]
  | .FnCall _ params => params
  | .Pack _ _ fields => fields.map PackField.value
  | .Unpack _ _ fields source => fields.map PackField.value ++ [source]
  | .Ret retList _ => retList
  | .WriteRef val valRef => [val, valRef]
  | .Loop body => body.exp
  | .While condition body => condition :: body.exp
  | .If condition trueBranch none => condition :: trueBranch.exp
  | .If condition trueBranch (some falseBranch) =>
    condition :: (trueBranch.exp ++ falseBranch.exp)
  | .Ld _ | .Error _ | .Local _ _ _ | .Ref _ _ | .Break | .Continue | .Nop => []

theorem nodesOf_append (es es' : List ExpLoc) : nodesOf (es ++ es') = nodesOf es ++ nodesOf es' := by
  induction es with
  | nil => rfl
  | cons e es ih => simp only [List.cons_append, nodesOf, ih, List.append_assoc]

theorem fieldNodes_eq (fields : List PackField) :
    fieldNodes fields = nodesOf (fields.map PackField.value) := by
  induction fields with
  | nil => rfl
  | cons field fields ih =>
    cases field
    simp only [fieldNodes, List.map_cons, nodesOf, ih, PackField.value]

theorem Block.nodes_eq (b : Block) : b.nodes = nodesOf b.exp := by
  cases b
  simp only [Block.nodes, Block.exp]

theorem Exp.inside_eq (e : Exp) : e.inside = nodesOf e.parts := by
  cases e
  case If condition trueBranch falseBranch =>
    cases falseBranch <;>
      simp only [Exp.inside, Exp.parts, nodesOf, nodesOf_append, Block.nodes_eq]
  all_goals simp only [Exp.inside, Exp.parts, nodesOf, nodesOf_append, fieldNodes_eq,
    Block.nodes_eq, List.append_nil]

@[simp] theorem weight_nil : weight [] = 0 := by
  simp [weight, nodesOf]

@[simp] theorem weight_append (es es' : List ExpLoc) :
    weight (es ++ es') = weight es + weight es' := by
  simp [weight, nodesOf_append]

theorem weight_cons (e : ExpLoc) (es : List ExpLoc) : weight (e :: es) = weight [e] + weight es :=
  weight_append [e] es

theorem weight_mk (index : ℕ) (e : Exp) :
    weight [.mk index e] = (if e.isFiller then 0 else {e}) + weight e.parts := by
  simp only [weight, nodesOf, ExpLoc.nodes, List.append_nil, ← Exp.inside_eq]
  cases he : e.isFiller <;> simp [he]

theorem weight_filler {index : ℕ} {e : Exp} (h : e.isFiller) :
    weight [.mk index e] = weight e.parts := by
  rw [weight_mk, if_pos h, zero_add]

@[simp] theorem weight_nop (index : ℕ) : weight [.mk index .Nop] = 0 := by
  simp [weight_mk, Exp.isFiller, Exp.parts]

@[simp] theorem weight_continue (index : ℕ) : weight [.mk index .Continue] = 0 := by
  simp [weight_mk, Exp.isFiller, Exp.parts]

theorem weight_val (index : ℕ) (e : ExpLoc) : weight [.mk index e.val] = weight [e] := by
  cases e
  simp only [weight_mk, ExpLoc.val]

@[simp] theorem weight_replicate_nop (n index : ℕ) :
    weight (List.replicate n (.mk index .Nop)) = 0 := by
  induction n with
  | zero => rfl
  | succ n ih => rw [List.replicate_succ, weight_cons, weight_nop, ih, zero_add]

theorem weight_perm {es es' : List ExpLoc} (h : es.Perm es') : weight es = weight es' := by
  induction h with
  | nil => rfl
  | @cons e l l' _ ih => rw [weight_cons e l, weight_cons e l', ih]
  | swap e e' es =>
    rw [weight_cons e' (e :: es), weight_cons e es, weight_cons e (e' :: es), weight_cons e' es,
      add_left_comm]
  | trans _ _ ih ih' => exact ih.trans ih'

theorem weight_basket (e : ExpLoc) : weight [basket e] = weight [e] := by
  unfold basket
  split
  · exact weight_filler rfl
  · rfl

end MoveTools.Disassembler
