import MoveTools.Disassembler.Unit

namespace MoveTools.Disassembler

/-! The operand stack of the Move machine, on code without branches. Of a value only its origin is
kept: the instruction that pushed it, and which of its values it is. -/

structure Value where
  pusher : ℕ
  component : ℕ
  deriving DecidableEq, Repr

structure Arity where
  pops : ℕ
  pushes : ℕ
  deriving DecidableEq, Repr

section
variable (unit : UnitAccess) (locals retLen : ℕ)

def callArity (handle : ℕ) : Arity :=
  ⟨(unit.functionHandle handle).parameters, (unit.functionHandle handle).returns⟩

def fieldCount (index : ℕ) : Option ℕ := (unit.structDef index).bind fun d => d.fields.map List.length

def structOf (index : ℕ) : Option ℕ :=
  (unit.structDefInstantiation index).map Instantiation.handle

def fieldOf (index : ℕ) : Option ℕ := (unit.fieldInstantiation index).map Instantiation.handle

def hasField (index : ℕ) : Option Unit :=
  (unit.fieldHandle index).bind fun field =>
    (unit.structDef field.owner).bind fun d =>
      d.fields.bind fun names => names[field.field]?.map fun _ => ()

def ifLocal (index : ℕ) (arity : Arity) : Option Arity :=
  if index < locals then some arity else none

def ifStruct (index : ℕ) (arity : Arity) : Option Arity :=
  (unit.structDef index).map fun _ => arity

/-- The number of fields that an `Unpack` takes apart. -/
def unpackCount : Bytecode → Option ℕ
  | .Unpack index => fieldCount unit index
  | .UnpackGeneric index => (structOf unit index).bind (fieldCount unit)
  | _ => none

/-- Branches, and instructions whose indices lead nowhere, have none. -/
def arity : Bytecode → Option Arity
  | .Pop => some ⟨1, 0⟩
  | .Nop => some ⟨0, 0⟩
  | .Ret => some ⟨retLen, 0⟩
  | .Abort => some ⟨1, 0⟩
  | .BrTrue _ | .BrFalse _ | .Branch _ => none
  | .LdU8 _ | .LdU64 _ | .LdU128 _ | .LdConst _ | .LdTrue | .LdFalse => some ⟨0, 1⟩
  | .CastU8 | .CastU64 | .CastU128 | .Not | .ReadRef | .FreezeRef => some ⟨1, 1⟩
  | .Add | .Sub | .Mul | .Mod | .Div | .BitOr | .BitAnd | .Xor | .Or | .And | .Eq | .Neq
  | .Lt | .Gt | .Le | .Ge | .Shl | .Shr => some ⟨2, 1⟩
  | .WriteRef => some ⟨2, 0⟩
  | .CopyLoc index | .MoveLoc index | .MutBorrowLoc index | .ImmBorrowLoc index =>
    ifLocal locals index ⟨0, 1⟩
  | .StLoc index => ifLocal locals index ⟨1, 0⟩
  | .Call index => some (callArity unit index)
  | .CallGeneric index => some (callArity unit (unit.functionInstantiation index).handle)
  | .Exists index | .MoveFrom index | .ImmBorrowGlobal index | .MutBorrowGlobal index =>
    ifStruct unit index ⟨1, 1⟩
  | .ExistsGeneric index | .MoveFromGeneric index | .ImmBorrowGlobalGeneric index
  | .MutBorrowGlobalGeneric index =>
    (structOf unit index).bind fun d => ifStruct unit d ⟨1, 1⟩
  | .MoveTo index => ifStruct unit index ⟨2, 0⟩
  | .MoveToGeneric index => (structOf unit index).bind fun d => ifStruct unit d ⟨2, 0⟩
  | .Pack index => (fieldCount unit index).map fun n => ⟨n, 1⟩
  | .PackGeneric index =>
    ((structOf unit index).bind (fieldCount unit)).map fun n => ⟨n, 1⟩
  | .Unpack index => (fieldCount unit index).map fun n => ⟨1, n⟩
  | .UnpackGeneric index =>
    ((structOf unit index).bind (fieldCount unit)).map fun n => ⟨1, n⟩
  | .MutBorrowField index | .ImmBorrowField index =>
    (hasField unit index).map fun _ => ⟨1, 1⟩
  | .MutBorrowFieldGeneric index | .ImmBorrowFieldGeneric index =>
    ((fieldOf unit index).bind (hasField unit)).map fun _ => ⟨1, 1⟩

/-- The values that the instruction at `offset` pushes, the last one on top. -/
def pushed (offset count : ℕ) : List Value := (List.range count).reverse.map fun j => ⟨offset, j⟩

/-- The stack has its top first; what is popped is listed in the order in which it was pushed. -/
def popPush (a : Arity) (offset : ℕ) (stack : List Value) : Option (List Value × List Value) :=
  if a.pops ≤ stack.length then
    some ((stack.take a.pops).reverse, pushed offset a.pushes ++ stack.drop a.pops)
  else none

/-- What every instruction from `offset` on pops, if no value is missing and none is left over. -/
def takes : ℕ → List Bytecode → List Value → Option (List (List Value))
  | _, [], stack => if stack = [] then some [] else none
  | offset, opcode :: code, stack => do
    let a ← arity unit locals retLen opcode
    let (popped, stack) ← popPush a offset stack
    let later ← takes (offset + 1) code stack
    return popped :: later

variable {unit locals retLen}

theorem takes_cons {offset : ℕ} {opcode : Bytecode} {code : List Bytecode} {stack : List Value}
    {popped : List (List Value)}
    (h : takes unit locals retLen offset (opcode :: code) stack = some popped) :
    ∃ a later, arity unit locals retLen opcode = some a ∧ a.pops ≤ stack.length ∧
      takes unit locals retLen (offset + 1) code
        (pushed offset a.pushes ++ stack.drop a.pops) = some later ∧
      popped = (stack.take a.pops).reverse :: later := by
  simp only [takes, Option.bind_eq_bind, Option.bind_eq_some_iff] at h
  obtain ⟨a, ha, ⟨vs, stack'⟩, hpop, later, hlater, h⟩ := h
  unfold popPush at hpop
  split at hpop
  case isTrue hle =>
    cases hpop
    cases h
    exact ⟨a, later, ha, hle, hlater, rfl⟩
  case isFalse => cases hpop

theorem arity_of_field {opcode : Bytecode} {a : Arity}
    (h : arity unit locals retLen opcode = some a)
    (hop : (∃ i, opcode = .StLoc i) ∨ opcode = .Pop) : a = ⟨1, 0⟩ := by
  rcases hop with ⟨i, rfl⟩ | rfl
  · exact (Option.some.inj (Option.ite_none_right_eq_some.mp h).2).symm
  · exact (Option.some.inj h).symm

theorem arity_of_unpack {opcode : Bytecode} {a : Arity} {k : ℕ}
    (h : arity unit locals retLen opcode = some a) (hk : unpackCount unit opcode = some k) :
    a = ⟨1, k⟩ := by
  cases opcode
  case Unpack | UnpackGeneric =>
    obtain ⟨n, hn, rfl⟩ := Option.map_eq_some_iff.mp h
    rw [Option.some.inj (hn.symm.trans hk)]
  all_goals cases hk

theorem getElem?_pushed {offset k j : ℕ} (hj : j < k) :
    (pushed offset k)[k - 1 - j]? = some ⟨offset, j⟩ := by
  have hlt : k - 1 - j < (List.range k).length := by
    rw [List.length_range]
    omega
  rw [pushed, List.getElem?_map, List.getElem?_reverse hlt, List.length_range,
    List.getElem?_range (by omega), Option.map_some]
  congr 2
  omega

theorem takes_length {offset : ℕ} {code : List Bytecode} {stack : List Value}
    {popped : List (List Value)} (h : takes unit locals retLen offset code stack = some popped) :
    popped.length = code.length := by
  induction code generalizing offset stack popped with
  | nil =>
    unfold takes at h
    split at h
    · cases h
      rfl
    · cases h
  | cons opcode code ih =>
    obtain ⟨a, later, _, _, hlater, rfl⟩ := takes_cons h
    rw [List.length_cons, List.length_cons, ih hlater]

theorem takes_arity {offset : ℕ} {code : List Bytecode} {stack : List Value}
    {popped : List (List Value)} (h : takes unit locals retLen offset code stack = some popped) :
    ∀ opcode ∈ code, ∃ a, arity unit locals retLen opcode = some a := by
  induction code generalizing offset stack popped with
  | nil => exact fun _ hmem => absurd hmem List.not_mem_nil
  | cons opcode code ih =>
    obtain ⟨a, later, ha, _, hlater, _⟩ := takes_cons h
    exact List.forall_mem_cons.mpr ⟨⟨a, ha⟩, ih hlater⟩

theorem mem_pushed {offset count : ℕ} {v : Value} :
    v ∈ pushed offset count ↔ v.pusher = offset ∧ v.component < count := by
  simp only [pushed, List.mem_map, List.mem_reverse, List.mem_range]
  refine ⟨?_, fun h => ⟨v.component, h.2, by rw [← h.1]⟩⟩
  intro ⟨j, hj, hv⟩
  subst hv
  exact ⟨rfl, hj⟩

/-- An instruction pops so many values, all of them pushed before it. -/
theorem takes_popped {offset : ℕ} {code : List Bytecode} {stack : List Value}
    {popped : List (List Value)} (h : takes unit locals retLen offset code stack = some popped)
    (hstack : ∀ v ∈ stack, v.pusher < offset) {i : ℕ} {vs : List Value}
    (hvs : popped[i]? = some vs) :
    (∀ v ∈ vs, v.pusher < offset + i) ∧
      ∃ opcode a, code[i]? = some opcode ∧ arity unit locals retLen opcode = some a ∧
        vs.length = a.pops := by
  induction code generalizing offset stack popped i with
  | nil =>
    have hlen := takes_length h
    rw [List.length_eq_zero_iff.mp hlen] at hvs
    cases hvs
  | cons opcode code ih =>
    obtain ⟨a, later, ha, hle, hlater, rfl⟩ := takes_cons h
    cases i with
    | zero =>
      cases hvs
      refine ⟨fun v hv => hstack v (List.mem_of_mem_take (List.mem_reverse.mp hv)),
        opcode, a, rfl, ha, ?_⟩
      rw [List.length_reverse, List.length_take, Nat.min_eq_left hle]
    | succ i =>
      have hstack' : ∀ v ∈ pushed offset a.pushes ++ stack.drop a.pops,
          v.pusher < offset + 1 := by
        intro v hv
        rcases List.mem_append.mp hv with hv | hv
        · rw [(mem_pushed.mp hv).1]
          exact Nat.lt_succ_self _
        · exact Nat.lt_succ_of_lt (hstack v (List.mem_of_mem_drop hv))
      obtain ⟨hbefore, hcount⟩ := ih hlater hstack' hvs
      refine ⟨fun v hv => ?_, hcount⟩
      have := hbefore v hv
      omega

end

end MoveTools.Disassembler
