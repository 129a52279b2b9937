import MoveTools.Disassembler.Translator
import MoveTools.Disassembler.StackMachine

namespace MoveTools.Disassembler

/-! What one instruction without a branch builds, and what it takes from the list. -/

/-- The expressions an expression is made of; of an `Unpack` that is the struct it takes apart. -/
def Exp.operands : Exp → List ExpLoc
  | .Abort e | .Cast e _ | .Not e | .Let _ e | .FieldRef _ _ e | .Deref e | .Basket e => [e]
  | .BinaryOp left _ right => [left, right]
  | .FnCall _ params => params
  | .Pack _ _ fields => fields.map PackField.value
  | .Unpack _ _ _ source => [source]
  | .Ret retList _ => retList
  | .WriteRef val valRef => [val, valRef]
  | .While condition _ | .If condition _ _ => [condition]
  | .Ld _ | .Error _ | .Local _ _ _ | .Ref _ _ | .Loop _ | .Break | .Continue | .Nop => []

/-- `exp` was made of `operands`, possibly in parentheses. A `FreezeRef` passes its operand on. -/
def MadeOf (opcode : Bytecode) (exp : Exp) (operands : List ExpLoc) : Prop :=
  match opcode with
  | .FreezeRef => operands.map ExpLoc.val = [exp]
  | _ => exp.operands = operands ∨ exp.operands = operands.map basket

def Exp.isSolid : Exp → Bool
  | .Nop | .Let _ _ | .Unpack _ _ _ _ => false
  | _ => true

/-- Everything but the list and the marks on locals is the same. -/
structure SamePlace (t t' : Translator) : Prop where
  rest : t'.rest = t.rest
  position : t'.position = t.position
  endOffset : t'.endOffset = t.endOffset
  built : t'.built = t.built

/-- `n` operands are taken from the end of a list. If it is too short, all of it is taken, and
what is missing is made up. -/
inductive Taken (expressions : List ExpLoc) (n : ℕ) : List ExpLoc → List ExpLoc → Prop
  | enough {operands left : List ExpLoc} (h : expressions = left ++ operands)
      (hn : operands.length = n) : Taken expressions n operands left
  | short {operands : List ExpLoc} (h : expressions.length < n) (hn : operands.length = n)
      (hm : ∃ e ∈ operands, e.val = .Nop) : Taken expressions n operands []

variable {t t' : Translator} {n : ℕ} {expressions operands left : List ExpLoc}

theorem SamePlace.refl (t : Translator) : SamePlace t t := ⟨rfl, rfl, rfl, rfl⟩

theorem Taken.length (h : Taken expressions n operands left) : operands.length = n := by
  cases h with
  | enough _ hn => exact hn
  | short _ hn _ => exact hn

theorem Taken.subset (h : Taken expressions n operands left) : left ⊆ expressions := by
  cases h with
  | enough h _ => exact h ▸ List.subset_append_left _ _
  | short _ _ _ => exact List.nil_subset _

theorem Taken.length_le (h : Taken expressions n operands left) :
    left.length ≤ expressions.length := by
  cases h with
  | enough h _ =>
    rw [h, List.length_append]
    omega
  | short _ _ _ => exact Nat.zero_le _

theorem Taken.nothing (expressions : List ExpLoc) : Taken expressions 0 [] expressions :=
  .enough (List.append_nil _).symm rfl

theorem popExp_taken (t : Translator) :
    Taken t.expressions 1 [t.popExp.1] t.popExp.2.expressions ∧ SamePlace t t.popExp.2 := by
  rcases List.eq_nil_or_concat t.expressions with h | ⟨l, e, h⟩
  · have hpop : t.popExp = (.mk 0 .Nop, t) := by simp [Translator.popExp, h]
    rw [hpop, show t.expressions = [] from h]
    refine ⟨.short Nat.zero_lt_one rfl ⟨.mk 0 .Nop, List.mem_singleton.mpr rfl, rfl⟩, .refl t⟩
  · have hpop : t.popExp = (e, { t with expressions := l }) := by simp [Translator.popExp, h]
    rw [hpop]
    exact ⟨.enough (by simpa using h) rfl, ⟨rfl, rfl, rfl, rfl⟩⟩

theorem popExpVec_taken (t : Translator) (n : ℕ) :
    Taken t.expressions n (t.popExpVec n).1 (t.popExpVec n).2.expressions ∧
      SamePlace t (t.popExpVec n).2 := by
  by_cases h : n > t.expressions.length
  · have hpop : t.popExpVec n =
        (t.expressions ++ List.replicate (n - t.expressions.length) (t.loc .Nop),
          { t with expressions := [] }) := by simp [Translator.popExpVec, h]
    have hm : t.loc .Nop ∈ List.replicate (n - t.expressions.length) (t.loc .Nop) :=
      List.mem_replicate.mpr ⟨by omega, rfl⟩
    rw [hpop]
    refine ⟨.short h ?_ ⟨t.loc .Nop, List.mem_append_right _ hm, rfl⟩, ⟨rfl, rfl, rfl, rfl⟩⟩
    simp only [List.length_append, List.length_replicate]
    omega
  · have hpop : t.popExpVec n = (t.expressions.drop (t.expressions.length - n),
        { t with expressions := t.expressions.take (t.expressions.length - n) }) := by
      simp [Translator.popExpVec, h]
    rw [hpop]
    refine ⟨.enough (List.take_append_drop _ _).symm ?_, ⟨rfl, rfl, rfl, rfl⟩⟩
    simp only [List.length_drop]
    omega

theorem popExpTimes_samePlace (n : ℕ) (t : Translator) : SamePlace t (t.popExpTimes n).2 := by
  induction n generalizing t with
  | zero => exact ⟨rfl, rfl, rfl, rfl⟩
  | succ n ih =>
    have hs := (popExp_taken t).2
    have hs' := ih t.popExp.2
    exact ⟨hs'.rest.trans hs.rest, hs'.position.trans hs.position,
      hs'.endOffset.trans hs.endOffset, hs'.built.trans hs.built⟩

/-- Popping one by one gives the last operand first. -/
theorem popExpTimes_eq (n : ℕ) (t : Translator) :
    (t.popExpTimes n).1.reverse = List.replicate (n - t.expressions.length) (.mk 0 .Nop) ++
        t.expressions.drop (t.expressions.length - n) ∧
      (t.popExpTimes n).2.expressions = t.expressions.take (t.expressions.length - n) := by
  induction n generalizing t with
  | zero => simp [Translator.popExpTimes]
  | succ n ih =>
    have hpop : t.popExpTimes (n + 1) = (t.popExp.1 :: (t.popExp.2.popExpTimes n).1,
        (t.popExp.2.popExpTimes n).2) := rfl
    rw [hpop]
    simp only [List.reverse_cons, (ih t.popExp.2).1, (ih t.popExp.2).2]
    rcases List.eq_nil_or_concat t.expressions with h | ⟨l, e, h⟩
    · have hpe : t.popExp = (.mk 0 .Nop, t) := by simp [Translator.popExp, h]
      simp [hpe, h, List.replicate_succ']
    · have hpe : t.popExp = (e, { t with expressions := l }) := by simp [Translator.popExp, h]
      have hle : l.length - n ≤ l.length := Nat.sub_le _ _
      simp [hpe, h, List.drop_append_of_le_length hle, List.take_append_of_le_length hle]

theorem popExpTimes_taken (n : ℕ) (t : Translator) :
    Taken t.expressions n (t.popExpTimes n).1.reverse (t.popExpTimes n).2.expressions := by
  obtain ⟨hops, hleft⟩ := popExpTimes_eq n t
  rw [hops, hleft]
  by_cases h : n ≤ t.expressions.length
  · rw [Nat.sub_eq_zero_of_le h]
    apply Taken.enough
    · simp [List.take_append_drop]
    · simp only [List.replicate_zero, List.nil_append, List.length_drop]
      omega
  · have hz : t.expressions.length - n = 0 := by omega
    rw [hz, List.drop_zero, List.take_zero]
    apply Taken.short (Nat.lt_of_not_le h)
    · simp only [List.length_append, List.length_replicate]
      omega
    · refine ⟨.mk 0 .Nop, List.mem_append_left _ (List.mem_replicate.mpr ⟨by omega, rfl⟩), rfl⟩

theorem values_of_fields {names : List String} {values : List ExpLoc}
    (h : values.length ≤ names.length) :
    (List.zipWith PackField.mk names values).map PackField.value = values := by
  rw [List.map_zipWith]
  have hsnd := List.map_snd_zip h
  rwa [List.zip, List.map_zipWith] at hsnd

/-- An instruction of an arity has taken its operands and made an expression of them. -/
structure Builds (opcode : Bytecode) (a : Arity) (t : Translator) (b : Built) (t' : Translator) :
    Prop where
  taken : Taken t.expressions a.pops b.operands t'.expressions
  place : SamePlace t t'
  madeOf : MadeOf opcode b.exp b.operands
  solid : 0 < a.pushes → (∀ e ∈ b.operands, e.val.isSolid) → b.exp.isSolid

section
variable {opcode : Bytecode} {pushes : ℕ}

theorem Builds.of_ok {a : Arity} {step : Step} {r : Built × Translator} (h : step = .ok r)
    (hb : Builds opcode a t r.1 r.2) : ∃ b t', step = .ok (b, t') ∧ Builds opcode a t b t' :=
  ⟨r.1, r.2, h, hb⟩

theorem leaf_builds {exp : Exp} (hm : MadeOf opcode exp []) (hs : 0 < pushes → exp.isSolid) :
    Builds opcode ⟨0, pushes⟩ t ⟨[], exp⟩ t where
  taken := .nothing _
  place := .refl t
  madeOf := hm
  solid := fun hp _ => hs hp

theorem local_builds {exp : Exp} (l : Local) (hm : MadeOf opcode exp [])
    (hs : exp.isSolid) : Builds opcode ⟨0, pushes⟩ t ⟨[], exp⟩ (t.markAsUsed l) where
  taken := .nothing _
  place := ⟨rfl, rfl, rfl, rfl⟩
  madeOf := hm
  solid := fun _ _ => hs

theorem popUnary_builds {make : ExpLoc → Exp} (hm : ∀ e, MadeOf opcode (make e) [e])
    (hs : 0 < pushes → ∀ e, e.val.isSolid → (make e).isSolid) (t : Translator) :
    Builds opcode ⟨1, pushes⟩ t (popUnary make t).1 (popUnary make t).2 where
  taken := (popExp_taken t).1
  place := (popExp_taken t).2
  madeOf := hm _
  solid := fun hp h => hs hp _ (h _ (List.mem_singleton.mpr rfl))

theorem pop2Exp_taken (t : Translator) :
    Taken t.expressions 2 [t.pop2Exp.1, t.pop2Exp.2.1] t.pop2Exp.2.2.expressions ∧
      SamePlace t t.pop2Exp.2.2 :=
  ⟨popExpTimes_taken 2 t, popExpTimes_samePlace 2 t⟩

theorem binaryOp_builds (sign : Op)
    (hm : ∀ left right, MadeOf opcode (.BinaryOp (basket left) sign (basket right)) [left, right])
    (t : Translator) :
    Builds opcode ⟨2, 1⟩ t (BinaryOp.exp sign t).1 (BinaryOp.exp sign t).2 where
  taken := (pop2Exp_taken t).1
  place := (pop2Exp_taken t).2
  madeOf := hm _ _
  solid := fun _ _ => rfl

theorem writeRef_builds (t : Translator) :
    Builds .WriteRef ⟨2, 0⟩ t (WriteRef.exp t).1 (WriteRef.exp t).2 where
  taken := (pop2Exp_taken t).1
  place := (pop2Exp_taken t).2
  madeOf := .inl rfl
  solid := fun hp _ => absurd hp (Nat.lt_irrefl 0)

theorem ret_builds (n : ℕ) (t : Translator) :
    Builds .Ret ⟨n, 0⟩ t (Ret.exp n t).1 (Ret.exp n t).2 where
  taken := popExpTimes_taken n t
  place := popExpTimes_samePlace n t
  madeOf := .inl rfl
  solid := fun hp _ => absurd hp (Nat.lt_irrefl 0)

theorem fnCall_builds {callee : Callee}
    (hm : ∀ params, MadeOf opcode (.FnCall callee params) params) (n : ℕ) (t : Translator) :
    Builds opcode ⟨n, pushes⟩ t ⟨(t.popExpVec n).1, .FnCall callee (t.popExpVec n).1⟩
      (t.popExpVec n).2 where
  taken := (popExpVec_taken t n).1
  place := (popExpVec_taken t n).2
  madeOf := hm _
  solid := fun _ _ => rfl

variable (f : Function)

theorem buildIn_builds (kind : BuildIn) {index : ℕ} {d : StructDef}
    (hd : f.unit.structDef index = some d)
    (hm : ∀ callee params, MadeOf opcode (.FnCall callee params) params)
    (typeParams : Option ℕ) (t : Translator) :
    Builds opcode ⟨kind.parametersCount, pushes⟩ t (FnCall.buildIn f kind index typeParams t).1
      (FnCall.buildIn f kind index typeParams t).2 := by
  simp only [FnCall.buildIn, hd]
  exact fnCall_builds (hm _) _ t

theorem pack_builds {index : ℕ} {d : StructDef} {names : List String}
    (hd : f.unit.structDef index = some d) (hf : d.fields = some names)
    (hm : ∀ name typeParams fields, MadeOf opcode (.Pack name typeParams fields)
      (fields.map PackField.value))
    (typeParams : Option ℕ) (t : Translator) :
    Builds opcode ⟨names.length, pushes⟩ t (Pack.exp f index typeParams t).1
      (Pack.exp f index typeParams t).2 := by
  have htaken := popExpVec_taken t names.length
  have hlen := htaken.1.length
  have hvalues := values_of_fields (Nat.le_of_eq hlen)
  simp only [Pack.exp, hd, packFields, hf]
  refine ⟨htaken.1, htaken.2, ?_, fun _ _ => rfl⟩
  have h := hm ⟨d.name, d.module⟩ (typeArguments f typeParams)
    (List.zipWith PackField.mk names (t.popExpVec names.length).1)
  rwa [hvalues] at h

theorem fieldRef_builds {index : ℕ} (hf : hasField f.unit index = some ()) (isMut : Bool)
    (hm : ∀ name e, MadeOf opcode (.FieldRef isMut name e) [e]) (t : Translator) :
    Builds opcode ⟨1, pushes⟩ t (FieldRef.exp f index isMut t).1
      (FieldRef.exp f index isMut t).2 := by
  simp only [hasField, Option.bind_eq_some_iff, Option.map_eq_some_iff] at hf
  obtain ⟨field, hfield, d, hd, names, hnames, name, hname, _⟩ := hf
  simp only [FieldRef.exp, hfield, Option.bind_some, hd, Option.map_some, hnames, hname]
  exact popUnary_builds (hm name) (fun _ _ _ => rfl) t

theorem ldConst_builds (index : ℕ) (t : Translator) :
    Builds (.LdConst index) ⟨0, 1⟩ t (Ld.ldConst f index t).1 (Ld.ldConst f index t).2 := by
  unfold Ld.ldConst
  split
  · exact leaf_builds (.inl rfl) (fun _ => rfl)
  · dsimp only
    split
    · exact leaf_builds (.inl rfl) (fun _ => rfl)
    · exact leaf_builds (.inl rfl) (fun _ => rfl)
  · exact leaf_builds (.inl rfl) (fun _ => rfl)

theorem localVar_of_arity {index : ℕ} {a' a : Arity}
    (h : ifLocal f.locals.length index a' = some a) :
    a = a' ∧ ∃ l, localVar f index = .ok l := by
  by_cases hlt : index < f.locals.length
  · rw [ifLocal, if_pos hlt] at h
    exact ⟨(Option.some.inj h).symm, f.locals[index], by simp [localVar, hlt]⟩
  · simp [ifLocal, hlt] at h

theorem structDef_of_arity {index : ℕ} {a' a : Arity} (h : ifStruct f.unit index a' = some a) :
    a = a' ∧ ∃ d, f.unit.structDef index = some d := by
  obtain ⟨d, hd, ha⟩ := Option.map_eq_some_iff.mp h
  exact ⟨ha.symm, d, hd⟩

theorem loc_builds {index : ℕ} {a : Arity} (access : LocAccess)
    (h : ifLocal f.locals.length index ⟨0, 1⟩ = some a)
    (hm : ∀ l, MadeOf opcode (.Local false access l) []) (t : Translator) :
    ∃ b t', Loc.exp f false access index t = .ok (b, t') ∧ Builds opcode a t b t' := by
  obtain ⟨rfl, l, hl⟩ := localVar_of_arity f h
  refine ⟨⟨[], .Local false access l⟩, t.markAsUsed l, ?_, local_builds l (hm l) rfl⟩
  rw [Loc.exp, hl]
  rfl

theorem ref_builds {index : ℕ} {a : Arity} (isMut : Bool)
    (h : ifLocal f.locals.length index ⟨0, 1⟩ = some a)
    (hm : ∀ l, MadeOf opcode (.Ref isMut l) []) (t : Translator) :
    ∃ b t', Ref.exp f index isMut t = .ok (b, t') ∧ Builds opcode a t b t' := by
  obtain ⟨rfl, l, hl⟩ := localVar_of_arity f h
  refine ⟨⟨[], .Ref isMut l⟩, t.markAsUsed l, ?_, local_builds l (hm l) rfl⟩
  rw [Ref.exp, hl]
  rfl

theorem buildIn_of_arity (kind : BuildIn) {index : ℕ} {a : Arity}
    (h : ifStruct f.unit index ⟨kind.parametersCount, pushes⟩ = some a)
    (hm : ∀ callee params, MadeOf opcode (.FnCall callee params) params)
    (typeParams : Option ℕ) (t : Translator) :
    Builds opcode a t (FnCall.buildIn f kind index typeParams t).1
      (FnCall.buildIn f kind index typeParams t).2 := by
  obtain ⟨rfl, d, hd⟩ := structDef_of_arity f h
  exact buildIn_builds f kind hd hm typeParams t

theorem buildInGeneric_of_arity (kind : BuildIn) {index : ℕ} {a : Arity}
    (h : ((structOf f.unit index).bind fun d =>
      ifStruct f.unit d ⟨kind.parametersCount, pushes⟩) = some a)
    (hm : ∀ callee params, MadeOf opcode (.FnCall callee params) params) (t : Translator) :
    Builds opcode a t (FnCall.buildInGeneric f index kind opcode t).1
      (FnCall.buildInGeneric f index kind opcode t).2 := by
  obtain ⟨d, hd, ha⟩ := Option.bind_eq_some_iff.mp h
  obtain ⟨inst, hinst, rfl⟩ := Option.map_eq_some_iff.mp hd
  simp only [FnCall.buildInGeneric, hinst]
  exact buildIn_of_arity f kind ha hm _ t

theorem fields_of_count {index n : ℕ} (h : fieldCount f.unit index = some n) :
    ∃ d names, f.unit.structDef index = some d ∧ d.fields = some names ∧ names.length = n := by
  obtain ⟨d, hd, hn⟩ := Option.bind_eq_some_iff.mp h
  obtain ⟨names, hnames, hlen⟩ := Option.map_eq_some_iff.mp hn
  exact ⟨d, names, hd, hnames, hlen⟩

theorem pack_of_arity {index : ℕ} {a : Arity}
    (h : (fieldCount f.unit index).map (fun n => (⟨n, 1⟩ : Arity)) = some a)
    (hm : ∀ name typeParams fields, MadeOf opcode (.Pack name typeParams fields)
      (fields.map PackField.value))
    (typeParams : Option ℕ) (t : Translator) :
    Builds opcode a t (Pack.exp f index typeParams t).1 (Pack.exp f index typeParams t).2 := by
  obtain ⟨n, hn, rfl⟩ := Option.map_eq_some_iff.mp h
  obtain ⟨d, names, hd, hnames, rfl⟩ := fields_of_count f hn
  exact pack_builds f hd hnames hm typeParams t

/-- All but the discards, the stores and the instructions that take structs apart. -/
theorem nextExp_builds {opcode : Bytecode} {a : Arity}
    (ha : arity f.unit f.locals.length f.retLen opcode = some a)
    (hu : unpackCount f.unit opcode = none) (hp : opcode ≠ .Pop) (hs : ∀ i, opcode ≠ .StLoc i)
    (translateBlock : ℕ → Translator → BlockStep) (t : Translator) :
    ∃ b t', nextExp f translateBlock opcode t = .ok (b, t') ∧ Builds opcode a t b t' := by
  cases opcode
  case Pop => exact absurd rfl hp
  case StLoc index => exact absurd rfl (hs index)
  case Nop =>
    cases ha
    exact Builds.of_ok rfl (leaf_builds (.inl rfl) (fun h => absurd h (Nat.lt_irrefl 0)))
  case LdConst index =>
    cases ha
    exact Builds.of_ok rfl (ldConst_builds f index t)
  case LdU8 | LdU64 | LdU128 | LdTrue | LdFalse =>
    cases ha
    exact Builds.of_ok rfl (leaf_builds (.inl rfl) (fun _ => rfl))
  case Abort =>
    cases ha
    apply Builds.of_ok rfl
    apply popUnary_builds
    · exact fun _ => .inl rfl
    · exact fun h => absurd h (Nat.lt_irrefl 0)
  case FreezeRef =>
    cases ha
    apply Builds.of_ok rfl
    apply popUnary_builds
    · exact fun _ => rfl
    · exact fun _ _ he => he
  case CastU8 | CastU64 | CastU128 | Not | ReadRef =>
    cases ha
    apply Builds.of_ok rfl
    apply popUnary_builds
    · exact fun _ => .inl rfl
    · exact fun _ _ _ => rfl
  case Add | Sub | Mul | Mod | Div | BitOr | BitAnd | Xor | Or | And | Eq | Neq
      | Lt | Gt | Le | Ge | Shl | Shr =>
    cases ha
    apply Builds.of_ok rfl
    apply binaryOp_builds
    exact fun _ _ => .inr rfl
  case WriteRef =>
    cases ha
    exact Builds.of_ok rfl (writeRef_builds t)
  case Ret =>
    cases ha
    exact Builds.of_ok rfl (ret_builds f.retLen t)
  case BrTrue | BrFalse | Branch => cases ha
  case CopyLoc | MoveLoc =>
    apply loc_builds f _ ha
    exact fun _ => .inl rfl
  case MutBorrowLoc | ImmBorrowLoc =>
    apply ref_builds f _ ha
    exact fun _ => .inl rfl
  case Call | CallGeneric =>
    cases ha
    refine Builds.of_ok rfl (fnCall_builds ?_ _ t)
    exact fun _ => .inl rfl
  case Exists | MoveFrom | ImmBorrowGlobal | MutBorrowGlobal | MoveTo =>
    apply Builds.of_ok rfl
    apply buildIn_of_arity
    · exact ha
    · exact fun _ _ => .inl rfl
  case ExistsGeneric | MoveFromGeneric | ImmBorrowGlobalGeneric | MutBorrowGlobalGeneric
      | MoveToGeneric =>
    apply Builds.of_ok rfl
    apply buildInGeneric_of_arity
    · exact ha
    · exact fun _ _ => .inl rfl
  case Pack index =>
    refine Builds.of_ok rfl (pack_of_arity f ha ?_ none t)
    exact fun _ _ _ => .inl rfl
  case PackGeneric index =>
    obtain ⟨n, hn, rfl⟩ := Option.map_eq_some_iff.mp ha
    obtain ⟨d, hd, hn⟩ := Option.bind_eq_some_iff.mp hn
    obtain ⟨inst, hinst, rfl⟩ := Option.map_eq_some_iff.mp hd
    have h : (fieldCount f.unit inst.handle).map (fun n => (⟨n, 1⟩ : Arity)) = some ⟨n, 1⟩ := by
      rw [hn, Option.map_some]
    simp only [nextExp, hinst]
    refine Builds.of_ok rfl (pack_of_arity f h ?_ _ t)
    exact fun _ _ _ => .inl rfl
  case Unpack | UnpackGeneric =>
    obtain ⟨n, hn, -⟩ := Option.map_eq_some_iff.mp ha
    exact absurd (hu.symm.trans hn) (Option.some_ne_none n).symm
  case MutBorrowField | ImmBorrowField =>
    obtain ⟨⟨⟩, hfield, rfl⟩ := Option.map_eq_some_iff.mp ha
    refine Builds.of_ok rfl (fieldRef_builds f hfield _ ?_ t)
    exact fun _ _ => .inl rfl
  case MutBorrowFieldGeneric index | ImmBorrowFieldGeneric index =>
    obtain ⟨⟨⟩, hfield, rfl⟩ := Option.map_eq_some_iff.mp ha
    obtain ⟨d, hd, hfield⟩ := Option.bind_eq_some_iff.mp hfield
    obtain ⟨inst, hinst, rfl⟩ := Option.map_eq_some_iff.mp hd
    simp only [nextExp, hinst]
    refine Builds.of_ok rfl (fieldRef_builds f hfield _ ?_ t)
    exact fun _ _ => .inl rfl

end
end MoveTools.Disassembler
