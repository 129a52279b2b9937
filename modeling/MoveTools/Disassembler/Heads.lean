import MoveTools.Disassembler.Statements
import MoveTools.Disassembler.Interpretation

namespace MoveTools.Disassembler

open Attempt Interpretation

/-! What is built for an instruction means what the instruction does. -/

/-- The expression that is built of a head and its operands. A struct is taken apart by more than
one instruction, see `unpackExp`. -/
def Head.exp (head : Head) (operands : List ExpLoc) : Exp :=
  let first := operands.headD (.mk 0 .Nop)
  let last := operands.getLastD (.mk 0 .Nop)
  match head with
  | .Abort => .Abort first
  | .Ld ld => .Ld ld
  | .Local access loc => .Local false access loc
  | .Cast ty => .Cast first ty
  | .BinaryOp sign => .BinaryOp (basket first) sign (basket last)
  | .Not => .Not first
  | .FnCall callee => .FnCall callee operands
  | .Let loc => .Let loc first
  | .Pack name typeParams names => .Pack name typeParams (List.zipWith PackField.mk names operands)
  | .Unpack name typeParams _ => .Unpack name typeParams [] first
  | .Ret => .Ret operands false
  | .FieldRef isMut fieldName => .FieldRef isMut fieldName first
  | .Ref isMut loc => .Ref isMut loc
  | .Deref => .Deref first
  | .WriteRef => .WriteRef first last

def Head.Fits : Head → ℕ → Prop
  | .Abort, n | .Cast _, n | .Not, n | .Let _, n | .FieldRef _ _, n | .Deref, n => n = 1
  | .BinaryOp _, n | .WriteRef, n => n = 2
  | .Ld _, n | .Local _ _, n | .Ref _ _, n => n = 0
  | .Pack _ _ names, n => n = names.length
  | .FnCall _, _ | .Ret, _ => True
  | .Unpack _ _ _, _ => False

/-- How many values an operation gives; a call gives as many as its function returns. -/
def Head.pushes : Head → Option ℕ
  | .Abort | .Let _ | .Ret | .WriteRef => some 0
  | .Unpack _ _ names => some names.length
  | .FnCall _ => none
  | _ => some 1

section
variable {σ ε α β : Type} {x : Program σ ε α} {P Q : α → Prop}

/-- Whatever `x` returns has `P`. -/
def Program.Gives (x : Program σ ε α) (P : α → Prop) : Prop :=
  ∀ s r, x s = result (.ok r) → P r.1

theorem Program.bind_apply (x : Program σ ε α) (g : α → Program σ ε β) (s : σ) :
    (x >>= g) s = x s >>= fun r => g r.1 r.2 := rfl

theorem Program.Gives.bind_congr (h : x.Gives P) {g g' : α → Program σ ε β}
    (hg : ∀ a, P a → g a = g' a) : x >>= g = x >>= g' := by
  funext s
  rw [bind_apply, bind_apply]
  rcases hx : x s with _ | e | r
  · rfl
  · rfl
  · exact congrFun (hg r.1 (h s r hx)) r.2

theorem Program.gives_pure {a : α} (h : P a) : (pure a : Program σ ε α).Gives P := by
  intro s r hr
  cases Option.some.inj hr
  exact h

theorem Program.Gives.bind {g : α → Program σ ε β} {Q : β → Prop} (h : x.Gives P)
    (hg : ∀ a, P a → (g a).Gives Q) : (x >>= g).Gives Q := by
  intro s r hr
  rw [bind_apply] at hr
  rcases hx : x s with _ | e | q
  · rw [hx] at hr
    cases hr
  · rw [hx] at hr
    cases hr
  · rw [hx] at hr
    exact hg q.1 (h s q hx) q.2 r hr

theorem Program.gives_true : x.Gives fun _ => True := fun _ _ _ => trivial

end

section
variable {V σ ε : Type} {f : Function} (I : Interpretation f V σ ε) (fuel : ℕ)
  {head : Head} {operands : List ExpLoc} {opcode : Bytecode} {a : Arity}

theorem value_eq (e : ExpLoc) : I.value fuel e = I.eval fuel e.val >>= single := by
  cases e
  rfl

theorem evalLoc_eq (e : ExpLoc) : I.evalLoc fuel e = I.eval fuel e.val := by
  cases e
  rfl

theorem values_nil : I.values fuel [] = pure [] := rfl

theorem values_cons (e : ExpLoc) (es : List ExpLoc) : I.values fuel (e :: es) =
    I.value fuel e >>= fun v => I.values fuel es >>= fun vs => pure (v :: vs) := rfl

theorem values_singleton (e : ExpLoc) :
    I.values fuel [e] = I.value fuel e >>= fun v => pure [v] := by
  rw [values_cons, values_nil]
  simp only [pure_bind]

theorem values_append (es es' : List ExpLoc) : I.values fuel (es ++ es') =
    I.values fuel es >>= fun vs => I.values fuel es' >>= fun vs' => pure (vs ++ vs') := by
  induction es with
  | nil => simp [values_nil]
  | cons e es ih =>
    rw [List.cons_append, values_cons, values_cons, ih]
    simp only [bind_assoc, pure_bind, List.cons_append]

theorem values_gives (es : List ExpLoc) :
    (I.values fuel es).Gives fun vs => vs.length = es.length := by
  induction es with
  | nil => exact Program.gives_pure rfl
  | cons e es ih =>
    rw [values_cons]
    refine Program.gives_true.bind fun v _ => ih.bind fun vs hvs => ?_
    exact Program.gives_pure (congrArg (· + 1) hvs)

theorem statements_append (es es' : List ExpLoc) : I.statements fuel (es ++ es') =
    I.statements fuel es >>= fun _ => I.statements fuel es' := by
  induction es with
  | nil => rfl
  | cons e es ih =>
    have hcons : ∀ es, I.statements fuel (e :: es) =
        I.evalLoc fuel e >>= fun _ => I.statements fuel es := fun _ => rfl
    rw [List.cons_append, hcons, hcons, ih, bind_assoc]

theorem value_basket (e : ExpLoc) : I.value fuel (basket e) = I.value fuel e := by
  unfold basket
  split
  · rw [value_eq, value_eq]
    exact congrArg (· >>= single) (evalLoc_eq I fuel e)
  · rfl

theorem fieldValues_eq {names : List String} (h : operands.length = names.length) :
    I.fieldValues fuel (List.zipWith PackField.mk names operands) = I.values fuel operands := by
  induction names generalizing operands with
  | nil =>
    rw [List.length_eq_zero_iff.mp h]
    rfl
  | cons name names ih =>
    obtain ⟨e, es, rfl⟩ := List.exists_cons_of_length_eq_add_one h
    rw [List.zipWith_cons_cons, values_cons, ← ih (Nat.succ.inj h)]
    rfl

theorem names_of_fields {names : List String} (h : operands.length = names.length) :
    (List.zipWith PackField.mk names operands).map PackField.name = names := by
  rw [List.map_zipWith]
  have hfst := List.map_fst_zip (Nat.le_of_eq h.symm)
  rwa [List.zip, List.map_zipWith] at hfst

/-- An expression does with the values of its operands what its head does. -/
theorem eval_exp (h : head.Fits operands.length) :
    I.eval fuel (head.exp operands) = I.values fuel operands >>= I.perform head := by
  cases head
  case Abort | Cast | Not | Let | FieldRef | Deref =>
    obtain ⟨e, rfl⟩ := List.length_eq_one_iff.mp h
    rw [values_singleton, bind_assoc]
    simp only [pure_bind]
    rfl
  case BinaryOp sign =>
    obtain ⟨e, e', rfl⟩ := List.length_eq_two.mp h
    have heval : I.eval fuel (Head.exp (.BinaryOp sign) [e, e']) =
        I.value fuel (basket e) >>= fun v => I.value fuel (basket e') >>= fun w =>
          I.perform (.BinaryOp sign) [v, w] := rfl
    rw [heval, value_basket, value_basket, values_cons, values_singleton]
    simp only [bind_assoc, pure_bind]
  case WriteRef =>
    obtain ⟨e, e', rfl⟩ := List.length_eq_two.mp h
    rw [values_cons, values_singleton]
    simp only [bind_assoc, pure_bind]
    rfl
  case Ld | Local | Ref =>
    rw [List.length_eq_zero_iff.mp h, values_nil, pure_bind]
    rfl
  case Pack name typeParams names =>
    have heval : I.eval fuel (Head.exp (.Pack name typeParams names) operands) =
        I.fieldValues fuel (List.zipWith PackField.mk names operands) >>= I.perform (.Pack name
          typeParams ((List.zipWith PackField.mk names operands).map PackField.name)) := rfl
    rw [heval, fieldValues_eq I fuel h, names_of_fields h]
  case FnCall | Ret => rfl
  case Unpack => exact h.elim

end

section
variable {f : Function} {head : Head} {opcode : Bytecode} {a : Arity} {index : ℕ}
  {make : StructName → List FType → List String → Head} {make' : List ExpLoc → Exp}
  {typeParams : Option ℕ}

theorem structHead_eq (h : f.structHead make index typeParams = some head) :
    ∃ d names, f.unit.structDef index = some d ∧ d.fields = some names ∧
      head = make ⟨d.name, d.module⟩ (typeArguments f typeParams) names := by
  obtain ⟨d, hd, h⟩ := Option.bind_eq_some_iff.mp h
  obtain ⟨names, hnames, rfl⟩ := Option.map_eq_some_iff.mp h
  exact ⟨d, names, hd, hnames, rfl⟩

theorem structHeadGeneric_eq (h : f.structHeadGeneric make index = some head) :
    ∃ inst, f.unit.structDefInstantiation index = some inst ∧
      f.structHead make inst.handle (some inst.typeParameters) = some head :=
  Option.bind_eq_some_iff.mp h

theorem fieldCount_eq {d : StructDef} {names : List String} (hd : f.unit.structDef index = some d)
    (hnames : d.fields = some names) : fieldCount f.unit index = some names.length := by
  rw [fieldCount, hd, Option.bind_some, hnames, Option.map_some]

theorem fieldHead_eq {isMut : Bool} (h : f.fieldHead isMut index = some head) :
    ∃ name, head = .FieldRef isMut name := by
  obtain ⟨field, _, h⟩ := Option.bind_eq_some_iff.mp h
  obtain ⟨d, _, h⟩ := Option.bind_eq_some_iff.mp h
  obtain ⟨names, _, h⟩ := Option.bind_eq_some_iff.mp h
  obtain ⟨name, _, rfl⟩ := Option.map_eq_some_iff.mp h
  exact ⟨name, rfl⟩

theorem head_arity (hhead : f.head opcode = some head)
    (harity : arity f.unit f.locals.length f.retLen opcode = some a)
    (hunpack : opcode.isUnpack = false) :
    head.Fits a.pops ∧ ∀ n, head.pushes = some n → a.pushes = n := by
  cases opcode
  case Pop | Nop | FreezeRef | BrTrue | BrFalse | Branch => cases hhead
  case Unpack | UnpackGeneric => cases hunpack
  case Ret | Abort | Not | ReadRef | WriteRef | Add | Sub | Mul | Mod | Div | BitOr | BitAnd | Xor
      | Or | And | Eq | Neq | Lt | Gt | Le | Ge | Shl | Shr | CastU8 | CastU64 | CastU128 | LdU8
      | LdU64 | LdU128 | LdTrue | LdFalse =>
    cases hhead
    cases harity
    exact ⟨by trivial, fun n hn => Option.some.inj hn⟩
  case Call | CallGeneric =>
    cases hhead
    exact ⟨trivial, fun n hn => by cases hn⟩
  case LdConst =>
    obtain ⟨ld, _, rfl⟩ := Option.map_eq_some_iff.mp hhead
    cases harity
    exact ⟨rfl, fun n hn => Option.some.inj hn⟩
  case CopyLoc | MoveLoc | MutBorrowLoc | ImmBorrowLoc | StLoc =>
    obtain ⟨l, _, rfl⟩ := Option.map_eq_some_iff.mp hhead
    obtain ⟨rfl, _⟩ := localVar_of_arity f harity
    exact ⟨rfl, fun n hn => Option.some.inj hn⟩
  case Exists | MoveFrom | MoveTo | ImmBorrowGlobal | MutBorrowGlobal =>
    obtain ⟨d, _, rfl⟩ := Option.map_eq_some_iff.mp hhead
    exact ⟨trivial, fun n hn => by cases hn⟩
  case ExistsGeneric | MoveFromGeneric | MoveToGeneric | ImmBorrowGlobalGeneric
      | MutBorrowGlobalGeneric =>
    obtain ⟨inst, _, hhead⟩ := Option.bind_eq_some_iff.mp hhead
    obtain ⟨d, _, rfl⟩ := Option.map_eq_some_iff.mp hhead
    exact ⟨trivial, fun n hn => by cases hn⟩
  case Pack =>
    obtain ⟨d, names, hd, hnames, rfl⟩ := structHead_eq hhead
    obtain ⟨n, hn, rfl⟩ := Option.map_eq_some_iff.mp harity
    exact ⟨Option.some.inj (hn.symm.trans (fieldCount_eq hd hnames)),
      fun n hn => Option.some.inj hn⟩
  case PackGeneric =>
    obtain ⟨inst, hinst, hhead⟩ := structHeadGeneric_eq hhead
    obtain ⟨d, names, hd, hnames, rfl⟩ := structHead_eq hhead
    obtain ⟨n, hn, rfl⟩ := Option.map_eq_some_iff.mp harity
    obtain ⟨handle, hhandle, hn⟩ := Option.bind_eq_some_iff.mp hn
    rw [structOf, hinst] at hhandle
    cases hhandle
    exact ⟨Option.some.inj (hn.symm.trans (fieldCount_eq hd hnames)),
      fun n hn => Option.some.inj hn⟩
  case MutBorrowField | ImmBorrowField =>
    obtain ⟨_, _, rfl⟩ := Option.map_eq_some_iff.mp harity
    obtain ⟨name, rfl⟩ := fieldHead_eq hhead
    exact ⟨rfl, fun n hn => Option.some.inj hn⟩
  case MutBorrowFieldGeneric | ImmBorrowFieldGeneric =>
    obtain ⟨_, _, rfl⟩ := Option.map_eq_some_iff.mp harity
    obtain ⟨inst, _, hhead⟩ := Option.bind_eq_some_iff.mp hhead
    obtain ⟨name, rfl⟩ := fieldHead_eq hhead
    exact ⟨rfl, fun n hn => Option.some.inj hn⟩

theorem operands_eq (harity : arity f.unit f.locals.length f.retLen opcode = some a)
    (hpop : opcode ≠ .Pop) (hunpack : opcode.isUnpack = false) : f.operands opcode = a.pops := by
  have hfields : ∀ {index n}, fieldCount f.unit index = some n → f.fields index = n := by
    intro index n hn
    obtain ⟨d, names, hd, hnames, rfl⟩ := fields_of_count f hn
    rw [Function.fields, hd, Option.bind_some, hnames]
    rfl
  cases opcode
  case Pop => exact absurd rfl hpop
  case Unpack | UnpackGeneric => cases hunpack
  case Pack =>
    obtain ⟨n, hn, rfl⟩ := Option.map_eq_some_iff.mp harity
    exact hfields hn
  case PackGeneric =>
    obtain ⟨n, hn, rfl⟩ := Option.map_eq_some_iff.mp harity
    obtain ⟨handle, hhandle, hn⟩ := Option.bind_eq_some_iff.mp hn
    rw [Function.operands, hhandle, Option.map_some, Option.getD_some]
    exact hfields hn
  all_goals exact congrArg (fun a : Option Arity => (a.map Arity.pops).getD 0) harity

theorem MakesValue.of_exp (hmake : MakesValue f opcode make') (h : ∀ es, make' es = head.exp es) :
    MakesValue f opcode head.exp := by
  obtain rfl : make' = head.exp := funext h
  exact hmake

theorem literal_makes {ld : Ld} (h : f.literal index = some ld) (code : List Bytecode)
    (t : Translator) : Ld.ldConst (f.on code) index t = (⟨[], .Ld ld⟩, t) := by
  have hunit : (f.on code).unit = f.unit := rfl
  unfold Function.literal at h
  unfold Ld.ldConst
  rw [hunit]
  revert h
  cases f.unit.constant index with
  | none =>
    intro h
    cases h
  | some value =>
    cases value with
    | Address bytes =>
      intro h
      cases h
      rfl
    | Vector values =>
      intro h
      obtain ⟨bytes, hbytes, rfl⟩ := Option.map_eq_some_iff.mp h
      dsimp only
      -- the function on bytes that the translator maps is `MoveValue.byte`
      erw [hbytes]
    | _ =>
      intro h
      cases h

theorem local_exp {make : Local → Head} (h : (f.locals[index]?).map make = some head)
    (hn : f.operands opcode = 0) (he : ∀ l, ((make l).exp []).isLet = false)
    (hmake : ∀ l es, (make l).exp es = (make l).exp [])
    (hnext : ∀ code translateBlock t, nextExp (f.on code) translateBlock opcode t =
      localVar f index >>= fun l => pure (⟨[], (make l).exp []⟩, t.markAsUsed l)) :
    MakesValue f opcode head.exp := by
  obtain ⟨l, hl, rfl⟩ := Option.map_eq_some_iff.mp h
  have hlocal : localVar f index = .ok l := by rw [localVar, hl]
  have hleaf := leaf_makes hn (he l) fun code t => ⟨[], t.markAsUsed l, rfl, ⟨rfl, rfl, rfl, rfl⟩,
    fun translateBlock => by rw [hnext, hlocal]; rfl⟩
  exact hleaf.of_exp fun es => (hmake l es).symm

theorem plain_exp {handle : ℕ} (hhead : f.call handle typeParams = head)
    (hn : f.operands opcode = (f.unit.functionHandle handle).parameters)
    (hnext : ∀ code translateBlock t, nextExp (f.on code) translateBlock opcode t =
      .ok (FnCall.plain (f.on code) handle typeParams t)) : MakesValue f opcode head.exp := by
  subst hhead
  refine vec_makes _ (fun _ => rfl) fun code t => ⟨(t.popExpVec (f.operands opcode)).1,
    fun translateBlock => ?_⟩
  rw [hnext, hn]
  rfl

theorem buildIn_exp {kind : BuildIn} (hhead : f.buildIn kind index typeParams = some head)
    (hn : f.operands opcode = kind.parametersCount)
    (hnext : ∀ code translateBlock t, nextExp (f.on code) translateBlock opcode t =
      .ok (FnCall.buildIn (f.on code) kind index typeParams t)) : MakesValue f opcode head.exp := by
  obtain ⟨d, hd, rfl⟩ := Option.map_eq_some_iff.mp hhead
  refine vec_makes _ (fun _ => rfl) fun code t => ⟨(t.popExpVec kind.parametersCount).1,
    fun translateBlock => ?_⟩
  have hunit : (f.on code).unit = f.unit := rfl
  simp only [hnext, hn, FnCall.buildIn, hunit, hd]
  rfl

theorem buildInGeneric_exp {kind : BuildIn} (hhead : f.buildInGeneric kind index = some head)
    (hn : f.operands opcode = kind.parametersCount)
    (hnext : ∀ code translateBlock t, nextExp (f.on code) translateBlock opcode t =
      .ok (FnCall.buildInGeneric (f.on code) index kind opcode t)) :
    MakesValue f opcode head.exp := by
  obtain ⟨inst, hinst, hhead⟩ := Option.bind_eq_some_iff.mp hhead
  refine buildIn_exp hhead hn fun code translateBlock t => ?_
  have hunit : (f.on code).unit = f.unit := rfl
  simp only [hnext, FnCall.buildInGeneric, hunit, hinst]

theorem pack_exp (hhead : f.structHead .Pack index typeParams = some head)
    (hn : f.operands opcode = f.fields index)
    (hnext : ∀ code translateBlock t, nextExp (f.on code) translateBlock opcode t =
      .ok (Pack.exp f index typeParams t)) : MakesValue f opcode head.exp := by
  obtain ⟨d, names, hd, hnames, rfl⟩ := structHead_eq hhead
  have hfields : f.fields index = names.length := by
    rw [Function.fields, hd, Option.bind_some, hnames, Option.getD_some]
  refine vec_makes _ (fun _ => rfl) fun code t => ⟨(t.popExpVec names.length).1,
    fun translateBlock => ?_⟩
  rw [hnext, hn, hfields]
  simp only [Pack.exp, hd, packFields, hnames]
  rfl

theorem field_exp {isMut : Bool} (hhead : f.fieldHead isMut index = some head)
    (hn : f.operands opcode = 1)
    (hnext : ∀ code translateBlock t, nextExp (f.on code) translateBlock opcode t =
      .ok (FieldRef.exp (f.on code) index isMut t)) : MakesValue f opcode head.exp := by
  obtain ⟨field, hfield, hhead⟩ := Option.bind_eq_some_iff.mp hhead
  obtain ⟨d, hd, hhead⟩ := Option.bind_eq_some_iff.mp hhead
  obtain ⟨names, hnames, hhead⟩ := Option.bind_eq_some_iff.mp hhead
  obtain ⟨name, hname, rfl⟩ := Option.map_eq_some_iff.mp hhead
  refine popUnary_makesValue (.FieldRef isMut name) hn (fun _ => rfl) fun code translateBlock t => ?_
  have hunit : (f.on code).unit = f.unit := rfl
  simp only [hnext, FieldRef.exp, hunit, hfield, Option.bind_some, hd, Option.map_some, hnames, hname]

/-- An instruction with a head builds the expression of this head. -/
theorem head_makes (hhead : f.head opcode = some head)
    (harity : arity f.unit f.locals.length f.retLen opcode = some a)
    (hstore : opcode.isStore = false) (hunpack : opcode.isUnpack = false) :
    MakesValue f opcode head.exp := by
  have hpop : opcode ≠ .Pop := by
    rintro rfl
    cases hhead
  have hn := operands_eq harity hpop hunpack
  cases opcode
  case Pop | Nop | FreezeRef | BrTrue | BrFalse | Branch => cases hhead
  case Unpack | UnpackGeneric => cases hunpack
  case StLoc => cases hstore
  case LdU8 | LdU64 | LdU128 | LdTrue | LdFalse =>
    cases hhead
    exact leaf_makes rfl rfl fun _ t => ⟨[], t, rfl, .refl t, fun _ => rfl⟩
  case LdConst =>
    obtain ⟨ld, hld, rfl⟩ := Option.map_eq_some_iff.mp hhead
    refine leaf_makes rfl rfl fun code t => ⟨[], t, rfl, .refl t, fun _ => ?_⟩
    exact congrArg Except.ok (literal_makes hld code t)
  case Abort =>
    cases hhead
    exact popUnary_makesValue .Abort rfl (fun _ => rfl) fun _ _ _ => rfl
  case Not =>
    cases hhead
    exact popUnary_makesValue .Not rfl (fun _ => rfl) fun _ _ _ => rfl
  case ReadRef =>
    cases hhead
    exact popUnary_makesValue .Deref rfl (fun _ => rfl) fun _ _ _ => rfl
  case CastU8 | CastU64 | CastU128 =>
    cases hhead
    exact popUnary_makesValue (.Cast · _) rfl (fun _ => rfl) fun _ _ _ => rfl
  case Add | Sub | Mul | Mod | Div | BitOr | BitAnd | Xor | Or | And | Eq | Neq
      | Lt | Gt | Le | Ge | Shl | Shr =>
    cases hhead
    exact pop2Exp_makes (fun left right => .BinaryOp (basket left) _ (basket right)) rfl
      (fun _ _ => rfl) fun _ _ => ⟨_, fun _ => rfl⟩
  case WriteRef =>
    cases hhead
    exact pop2Exp_makes .WriteRef rfl (fun _ _ => rfl) fun _ _ => ⟨_, fun _ => rfl⟩
  case Ret =>
    cases hhead
    exact list_makes (.Ret · false)
      (fun t => ((t.popExpTimes f.retLen).1.reverse, (t.popExpTimes f.retLen).2)) (fun _ => rfl)
      (fun _ _ _ => popExpTimes_append) fun _ _ => ⟨_, fun _ => rfl⟩
  case CopyLoc | MoveLoc | MutBorrowLoc | ImmBorrowLoc =>
    obtain ⟨rfl, _⟩ := localVar_of_arity f harity
    exact local_exp hhead hn (fun _ => rfl) (fun _ _ => rfl) fun _ _ _ => rfl
  case Call =>
    exact plain_exp (Option.some.inj hhead) rfl fun _ _ _ => rfl
  case CallGeneric =>
    exact plain_exp (Option.some.inj hhead) rfl fun _ _ _ => rfl
  case Exists | MoveFrom | MoveTo | ImmBorrowGlobal | MutBorrowGlobal =>
    obtain ⟨rfl, _⟩ := structDef_of_arity f harity
    exact buildIn_exp hhead hn fun _ _ _ => rfl
  case ExistsGeneric | MoveFromGeneric | MoveToGeneric | ImmBorrowGlobalGeneric
      | MutBorrowGlobalGeneric =>
    obtain ⟨d, _, hd⟩ := Option.bind_eq_some_iff.mp harity
    obtain ⟨rfl, _⟩ := structDef_of_arity f hd
    exact buildInGeneric_exp hhead hn fun _ _ _ => rfl
  case Pack => exact pack_exp hhead rfl fun _ _ _ => rfl
  case PackGeneric =>
    obtain ⟨inst, hinst, hhead⟩ := structHeadGeneric_eq hhead
    refine pack_exp hhead ?_ fun code _ _ => ?_
    · rw [Function.operands, structOf, hinst]
      rfl
    · have hunit : (f.on code).unit = f.unit := rfl
      simp only [nextExp, hunit, hinst]
      rfl
  case MutBorrowField | ImmBorrowField =>
    obtain ⟨_, _, rfl⟩ := Option.map_eq_some_iff.mp harity
    exact field_exp hhead hn fun _ _ _ => rfl
  case MutBorrowFieldGeneric | ImmBorrowFieldGeneric =>
    obtain ⟨_, _, rfl⟩ := Option.map_eq_some_iff.mp harity
    obtain ⟨inst, hinst, hhead⟩ := Option.bind_eq_some_iff.mp hhead
    refine field_exp hhead hn fun code _ _ => ?_
    have hunit : (f.on code).unit = f.unit := rfl
    simp only [nextExp, hunit, hinst]

theorem notStore_of_value {n : ℕ}
    (harity : arity f.unit f.locals.length f.retLen opcode = some ⟨n, 1⟩) :
    opcode.isStore = false := by
  cases opcode
  case StLoc =>
    obtain ⟨ha, _⟩ := localVar_of_arity f harity
    cases ha
  all_goals rfl

end

end MoveTools.Disassembler
