import MoveTools.Disassembler.Conservation

namespace MoveTools.Disassembler

/-! An instruction without a branch as a function of the operands it takes from the list, whatever
is on the list below them and whatever code is around it. -/

def Function.on (f : Function) (code : List Bytecode) : Function := { f with code }

/-- How many fields an instruction names of the struct at an index. -/
def Function.fields (f : Function) (index : ℕ) : ℕ :=
  (((f.unit.structDef index).bind StructDef.fields).getD []).length

def Function.blockSize (f : Function) : Bytecode → ℕ
  | .Unpack index => f.fields index
  | .UnpackGeneric index => ((structOf f.unit index).map f.fields).getD 0
  | _ => 0

def Function.operands (f : Function) : Bytecode → ℕ
  | .Pop => 0
  | .Pack index => f.fields index
  | .PackGeneric index => ((structOf f.unit index).map f.fields).getD 0
  | .Unpack _ | .UnpackGeneric _ => 1
  | opcode => ((arity f.unit f.locals.length f.retLen opcode).map Arity.pops).getD 0

def Bytecode.isUnpack : Bytecode → Bool
  | .Unpack _ | .UnpackGeneric _ => true
  | _ => false

def Bytecode.isStore : Bytecode → Bool
  | .StLoc _ => true
  | _ => false

def Exp.isLet : Exp → Bool
  | .Let _ _ => true
  | _ => false

variable {f : Function} {opcode : Bytecode} {t t' : Translator} {left operands : List ExpLoc}
  {n : ℕ}

/-- What `make` makes of the operands is what the instruction builds in every body. -/
def Makes (f : Function) (opcode : Bytecode) (make : List ExpLoc → Exp) : Prop :=
  ∀ code t left operands, t.expressions = left ++ operands →
    operands.length = f.operands opcode →
    ∃ b t', (∀ translateBlock, nextExp (f.on code) translateBlock opcode t = .ok (b, t')) ∧
      b.exp = make operands ∧ t'.expressions = left ∧ SamePlace t t'

/-- A function of the operands of an instruction that is not a binding. -/
structure MakesValue (f : Function) (opcode : Bytecode) (make : List ExpLoc → Exp) : Prop where
  makes : Makes f opcode make
  notLet : ∀ operands, (make operands).isLet = false

theorem Taken.eq_of_append {taken rest : List ExpLoc} (h : Taken (left ++ operands) n taken rest)
    (hn : operands.length = n) : taken = operands ∧ rest = left := by
  cases h with
  | enough heq hlen =>
    obtain ⟨hleft, hops⟩ := List.append_inj' heq (hn.trans hlen.symm)
    exact ⟨hops.symm, hleft.symm⟩
  | short hlt _ _ =>
    rw [List.length_append] at hlt
    omega

theorem popExp_append {e : ExpLoc} (h : t.expressions = left ++ [e]) :
    t.popExp.1 = e ∧ t.popExp.2.expressions = left ∧ SamePlace t t.popExp.2 := by
  have htaken := popExp_taken t
  rw [h] at htaken
  obtain ⟨he, hleft⟩ := htaken.1.eq_of_append rfl
  exact ⟨List.singleton_inj.mp he, hleft, htaken.2⟩

theorem popExpVec_append (h : t.expressions = left ++ operands) (hn : operands.length = n) :
    (t.popExpVec n).1 = operands ∧ (t.popExpVec n).2.expressions = left ∧
      SamePlace t (t.popExpVec n).2 := by
  have htaken := popExpVec_taken t n
  rw [h] at htaken
  obtain ⟨hops, hleft⟩ := htaken.1.eq_of_append hn
  exact ⟨hops, hleft, htaken.2⟩

theorem popExpTimes_append (h : t.expressions = left ++ operands) (hn : operands.length = n) :
    (t.popExpTimes n).1.reverse = operands ∧ (t.popExpTimes n).2.expressions = left ∧
      SamePlace t (t.popExpTimes n).2 := by
  have htaken := popExpTimes_taken n t
  rw [h] at htaken
  obtain ⟨hops, hleft⟩ := htaken.eq_of_append hn
  exact ⟨hops, hleft, popExpTimes_samePlace n t⟩

theorem pop2Exp_append {first second : ExpLoc} (h : t.expressions = left ++ [first, second]) :
    t.pop2Exp.1 = first ∧ t.pop2Exp.2.1 = second ∧ t.pop2Exp.2.2.expressions = left ∧
      SamePlace t t.pop2Exp.2.2 := by
  have htaken := pop2Exp_taken t
  rw [h] at htaken
  obtain ⟨hops, hleft⟩ := htaken.1.eq_of_append rfl
  obtain ⟨hfirst, hsecond⟩ := List.cons.inj hops
  exact ⟨hfirst, (List.singleton_inj.mp hsecond), hleft, htaken.2⟩

theorem leaf_makes {e : Exp} (hn : f.operands opcode = 0) (he : e.isLet = false)
    (h : ∀ code t, ∃ operands t', t'.expressions = t.expressions ∧ SamePlace t t' ∧
      ∀ translateBlock, nextExp (f.on code) translateBlock opcode t = .ok (⟨operands, e⟩, t')) :
    MakesValue f opcode fun _ => e := by
  refine ⟨fun code t left operands hexp hlen => ?_, fun _ => he⟩
  obtain rfl : operands = [] := List.length_eq_zero_iff.mp (hlen.trans hn)
  obtain ⟨taken, t', hsame, hplace, hstep⟩ := h code t
  exact ⟨_, t', hstep, rfl, by rw [hsame, hexp, List.append_nil], hplace⟩

theorem popUnary_makes (make : ExpLoc → Exp) (hn : f.operands opcode = 1)
    (h : ∀ code translateBlock t,
      nextExp (f.on code) translateBlock opcode t = .ok (popUnary make t)) :
    Makes f opcode fun operands => make (operands.headD (.mk 0 .Nop)) := by
  intro code t left operands hexp hlen
  obtain ⟨e, rfl⟩ := List.length_eq_one_iff.mp (hlen.trans hn)
  obtain ⟨he, hleft, hplace⟩ := popExp_append hexp
  refine ⟨_, _, fun translateBlock => h code translateBlock t, ?_, hleft, hplace⟩
  change make t.popExp.1 = make e
  rw [he]

theorem popUnary_makesValue (make : ExpLoc → Exp) (hn : f.operands opcode = 1)
    (he : ∀ e, (make e).isLet = false)
    (h : ∀ code translateBlock t,
      nextExp (f.on code) translateBlock opcode t = .ok (popUnary make t)) :
    MakesValue f opcode fun operands => make (operands.headD (.mk 0 .Nop)) :=
  ⟨popUnary_makes make hn h, fun _ => he _⟩

theorem list_makes (make : List ExpLoc → Exp) (take : Translator → List ExpLoc × Translator)
    (he : ∀ es, (make es).isLet = false)
    (htake : ∀ t left operands, t.expressions = left ++ operands →
      operands.length = f.operands opcode →
      (take t).1 = operands ∧ (take t).2.expressions = left ∧ SamePlace t (take t).2)
    (h : ∀ code t, ∃ operands, ∀ translateBlock,
      nextExp (f.on code) translateBlock opcode t =
        .ok (⟨operands, make (take t).1⟩, (take t).2)) :
    MakesValue f opcode make := by
  refine ⟨fun code t left operands hexp hlen => ?_, he⟩
  obtain ⟨hops, hleft, hplace⟩ := htake t left operands hexp hlen
  obtain ⟨taken, hstep⟩ := h code t
  exact ⟨_, _, hstep, congrArg make hops, hleft, hplace⟩

theorem vec_makes (make : List ExpLoc → Exp) (he : ∀ es, (make es).isLet = false)
    (h : ∀ code t, ∃ operands, ∀ translateBlock,
      nextExp (f.on code) translateBlock opcode t =
        .ok (⟨operands, make (t.popExpVec (f.operands opcode)).1⟩,
          (t.popExpVec (f.operands opcode)).2)) :
    MakesValue f opcode make :=
  list_makes make _ he (fun _ _ _ => popExpVec_append) h

theorem pop2Exp_makes (make : ExpLoc → ExpLoc → Exp) (hn : f.operands opcode = 2)
    (he : ∀ e e', (make e e').isLet = false)
    (h : ∀ code t, ∃ operands, ∀ translateBlock,
      nextExp (f.on code) translateBlock opcode t =
        .ok (⟨operands, make t.pop2Exp.1 t.pop2Exp.2.1⟩, t.pop2Exp.2.2)) :
    MakesValue f opcode fun operands =>
      make (operands.headD (.mk 0 .Nop)) (operands.getLastD (.mk 0 .Nop)) := by
  refine ⟨fun code t left operands hexp hlen => ?_, fun _ => he _ _⟩
  obtain ⟨first, second, rfl⟩ := List.length_eq_two.mp (hlen.trans hn)
  obtain ⟨hfirst, hsecond, hleft, hplace⟩ := pop2Exp_append hexp
  obtain ⟨taken, hstep⟩ := h code t
  refine ⟨_, _, hstep, ?_, hleft, hplace⟩
  rw [hfirst, hsecond]
  rfl

theorem ldConst_makes (f : Function) (index : ℕ) : ∃ e : Exp, e.isLet = false ∧
    ∀ code t, Ld.ldConst (f.on code) index t = (⟨[], e⟩, t) := by
  have hconst : ∀ code t, Ld.ldConst (f.on code) index t = Ld.ldConst f index t := fun _ _ => rfl
  simp only [hconst]
  unfold Ld.ldConst
  split
  · exact ⟨_, rfl, fun _ _ => rfl⟩
  · dsimp only
    split
    · exact ⟨_, rfl, fun _ _ => rfl⟩
    · exact ⟨_, rfl, fun _ _ => rfl⟩
  · exact ⟨_, rfl, fun _ _ => rfl⟩

theorem local_makes {index : ℕ} (make : Local → Exp) (hn : f.operands opcode = 0)
    (hlt : index < f.locals.length) (he : ∀ l, (make l).isLet = false)
    (h : ∀ code translateBlock t, nextExp (f.on code) translateBlock opcode t =
      localVar f index >>= fun l => pure (⟨[], make l⟩, t.markAsUsed l)) :
    ∃ make, MakesValue f opcode make := by
  have hl : localVar f index = .ok f.locals[index] := by
    rw [localVar, List.getElem?_eq_getElem hlt]
  refine ⟨_, leaf_makes hn (he f.locals[index]) fun code t => ?_⟩
  refine ⟨[], t.markAsUsed f.locals[index], rfl, ⟨rfl, rfl, rfl, rfl⟩, fun translateBlock => ?_⟩
  rw [h, hl]
  rfl

theorem plain_makes {handle : ℕ}
    (hn : f.operands opcode = (f.unit.functionHandle handle).parameters) (typeParams : Option ℕ)
    (h : ∀ code translateBlock t,
      nextExp (f.on code) translateBlock opcode t =
        .ok (FnCall.plain (f.on code) handle typeParams t)) :
    ∃ make, MakesValue f opcode make := by
  refine ⟨_, vec_makes (.FnCall (.Plain (f.unit.functionHandle handle).module
    (f.unit.functionHandle handle).name (typeArguments f typeParams))) (fun _ => rfl)
    fun code t => ⟨(t.popExpVec (f.operands opcode)).1, fun translateBlock => ?_⟩⟩
  rw [h, hn]
  rfl

theorem buildIn_makes {kind : BuildIn} {index : ℕ} {d : StructDef}
    (hd : f.unit.structDef index = some d) (hn : f.operands opcode = kind.parametersCount)
    (typeParams : Option ℕ) (h : ∀ code translateBlock t,
      nextExp (f.on code) translateBlock opcode t =
        .ok (FnCall.buildIn (f.on code) kind index typeParams t)) :
    ∃ make, MakesValue f opcode make := by
  refine ⟨_, vec_makes (.FnCall (.BuildIn kind ⟨d.name, d.module⟩
    (typeArguments f typeParams))) (fun _ => rfl) fun code t => ?_⟩
  refine ⟨(t.popExpVec kind.parametersCount).1, fun translateBlock => ?_⟩
  have hunit : (f.on code).unit = f.unit := rfl
  simp only [h, hn, FnCall.buildIn, hunit, hd]
  rfl

theorem buildInGeneric_makes {kind : BuildIn} {index : ℕ}
    (hd : ((structOf f.unit index).bind f.unit.structDef).isSome)
    (hn : ∀ handle d, structOf f.unit index = some handle → f.unit.structDef handle = some d →
      f.operands opcode = kind.parametersCount)
    (h : ∀ code translateBlock t, nextExp (f.on code) translateBlock opcode t =
      .ok (FnCall.buildInGeneric (f.on code) index kind opcode t)) :
    ∃ make, MakesValue f opcode make := by
  obtain ⟨handle, hhandle, hd⟩ := isSome_bind hd
  obtain ⟨d, hd⟩ := Option.isSome_iff_exists.mp hd
  obtain ⟨inst, hinst, rfl⟩ := Option.map_eq_some_iff.mp hhandle
  refine buildIn_makes hd (hn _ d hhandle hd) (some inst.typeParameters) fun code translateBlock t => ?_
  have hunit : (f.on code).unit = f.unit := rfl
  simp only [h, FnCall.buildInGeneric, hunit, hinst]

theorem pack_makes {index : ℕ} {d : StructDef} (hd : f.unit.structDef index = some d)
    (hn : f.operands opcode = f.fields index) (typeParams : Option ℕ)
    (h : ∀ code translateBlock t,
      nextExp (f.on code) translateBlock opcode t = .ok (Pack.exp f index typeParams t)) :
    ∃ make, MakesValue f opcode make := by
  have hfields : f.fields index = (d.fields.getD []).length := by
    rw [Function.fields, hd, Option.bind_some]
  cases hnames : d.fields with
  | none =>
    rw [hnames] at hfields
    refine ⟨_, leaf_makes (hn.trans hfields) (e := .Pack ⟨d.name, d.module⟩
      (typeArguments f typeParams) []) rfl fun code t => ?_⟩
    refine ⟨[], t, rfl, .refl t, fun translateBlock => ?_⟩
    simp only [h, Pack.exp, hd, packFields, hnames]
  | some names =>
    rw [hnames] at hfields
    refine ⟨_, vec_makes (fun values => .Pack ⟨d.name, d.module⟩
      (typeArguments f typeParams) (List.zipWith PackField.mk names values)) (fun _ => rfl)
      fun code t => ?_⟩
    refine ⟨(t.popExpVec names.length).1, fun translateBlock => ?_⟩
    rw [hn, hfields]
    simp only [h, Pack.exp, hd, packFields, hnames, Option.getD_some]

theorem fieldRef_makes {index : ℕ} {isMut : Bool} (hf : (hasField f.unit index).isSome)
    (hn : f.operands opcode = 1) (h : ∀ code translateBlock t,
      nextExp (f.on code) translateBlock opcode t = .ok (FieldRef.exp (f.on code) index isMut t)) :
    ∃ make, MakesValue f opcode make := by
  obtain ⟨_, hf⟩ := Option.isSome_iff_exists.mp hf
  simp only [hasField, Option.bind_eq_some_iff, Option.map_eq_some_iff] at hf
  obtain ⟨field, hfield, d, hd, names, hnames, name, hname, _⟩ := hf
  refine ⟨_, popUnary_makesValue (.FieldRef isMut name) hn (fun _ => rfl)
    fun code translateBlock t => ?_⟩
  have hunit : (f.on code).unit = f.unit := rfl
  simp only [h, FieldRef.exp, hunit, hfield, Option.bind_some, hd, Option.map_some, hnames, hname]

theorem fieldRefGeneric_makes (isMut : Bool) {index : ℕ}
    (hf : ((fieldOf f.unit index).bind (hasField f.unit)).isSome)
    (hn : f.operands opcode = ((((fieldOf f.unit index).bind (hasField f.unit)).map
      fun _ => (⟨1, 1⟩ : Arity)).map Arity.pops).getD 0)
    (h : ∀ inst, f.unit.fieldInstantiation index = some inst → ∀ code translateBlock t,
      nextExp (f.on code) translateBlock opcode t =
        .ok (FieldRef.exp (f.on code) inst.handle isMut t)) : ∃ make, MakesValue f opcode make := by
  obtain ⟨handle, hhandle, hd⟩ := isSome_bind hf
  obtain ⟨inst, hinst, rfl⟩ := Option.map_eq_some_iff.mp hhandle
  obtain ⟨_, hfield⟩ := Option.isSome_iff_exists.mp hf
  exact fieldRef_makes hd (by rw [hn, hfield]; rfl) (h inst hinst)

theorem nextExp_makes (hop : f.InBounds opcode) (hbranch : opcode.offset = none)
    (hunpack : opcode.isUnpack = false) (hstore : opcode.isStore = false)
    (hfreeze : opcode ≠ .FreezeRef) : ∃ make, MakesValue f opcode make := by
  have hleaf : ∀ e : Exp, e.isLet = false → f.operands opcode = 0 →
      (∀ code translateBlock t,
        nextExp (f.on code) translateBlock opcode t = .ok (⟨[], e⟩, t)) →
      ∃ make, MakesValue f opcode make := fun e he hn h =>
    ⟨_, leaf_makes hn he fun code t => ⟨[], t, rfl, .refl t, fun translateBlock =>
      h code translateBlock t⟩⟩
  cases opcode
  case FreezeRef => exact absurd rfl hfreeze
  case StLoc => cases hstore
  case Unpack | UnpackGeneric => cases hunpack
  case BrTrue | BrFalse | Branch => cases hbranch
  case Pop | Nop | LdU8 | LdU64 | LdU128 | LdTrue | LdFalse =>
    exact hleaf _ rfl rfl fun _ _ _ => rfl
  case LdConst index =>
    obtain ⟨e, he, hconst⟩ := ldConst_makes f index
    exact hleaf e he rfl fun code _ t => congrArg Except.ok (hconst code t)
  case Abort | CastU8 | CastU64 | CastU128 | Not | ReadRef =>
    exact ⟨_, popUnary_makesValue _ rfl (fun _ => rfl) fun _ _ _ => rfl⟩
  case Add | Sub | Mul | Mod | Div | BitOr | BitAnd | Xor | Or | And | Eq | Neq
      | Lt | Gt | Le | Ge | Shl | Shr =>
    exact ⟨_, pop2Exp_makes (fun left right => .BinaryOp (basket left) _ (basket right)) rfl
      (fun _ _ => rfl) fun _ _ => ⟨_, fun _ => rfl⟩⟩
  case WriteRef =>
    exact ⟨_, pop2Exp_makes .WriteRef rfl (fun _ _ => rfl) fun _ _ => ⟨_, fun _ => rfl⟩⟩
  case Ret =>
    exact ⟨_, list_makes (.Ret · false)
      (fun t => ((t.popExpTimes f.retLen).1.reverse, (t.popExpTimes f.retLen).2)) (fun _ => rfl)
      (fun _ _ _ => popExpTimes_append) fun _ _ => ⟨_, fun _ => rfl⟩⟩
  case CopyLoc index | MoveLoc index | MutBorrowLoc index | ImmBorrowLoc index =>
    have hlt : index < f.locals.length := hop
    have hn : ((ifLocal f.locals.length index ⟨0, 1⟩).map Arity.pops).getD 0 = 0 := by
      rw [ifLocal, if_pos hlt, Option.map_some, Option.getD_some]
    exact local_makes _ hn hop (fun _ => rfl) fun _ _ _ => rfl
  case Call => exact plain_makes rfl none fun _ _ _ => rfl
  case CallGeneric index =>
    exact plain_makes rfl (some (f.unit.functionInstantiation index).typeParameters)
      fun _ _ _ => rfl
  case Exists | MoveFrom | ImmBorrowGlobal | MutBorrowGlobal | MoveTo =>
    obtain ⟨d, hd⟩ := Option.isSome_iff_exists.mp hop
    refine buildIn_makes hd ?_ none fun _ _ _ => rfl
    simp only [Function.operands, arity, ifStruct, hd]
    rfl
  case ExistsGeneric | MoveFromGeneric | ImmBorrowGlobalGeneric | MutBorrowGlobalGeneric
      | MoveToGeneric =>
    refine buildInGeneric_makes hop (fun handle d hhandle hd => ?_) fun _ _ _ => rfl
    simp only [Function.operands, arity, hhandle, Option.bind_some, ifStruct, hd]
    rfl
  case Pack index =>
    obtain ⟨d, hd⟩ := Option.isSome_iff_exists.mp hop
    exact pack_makes hd rfl none fun _ _ _ => rfl
  case PackGeneric index =>
    obtain ⟨handle, hhandle, hd⟩ := isSome_bind hop
    obtain ⟨d, hd⟩ := Option.isSome_iff_exists.mp hd
    obtain ⟨inst, hinst, rfl⟩ := Option.map_eq_some_iff.mp hhandle
    refine pack_makes hd ?_ (some inst.typeParameters) fun code _ _ => ?_
    · rw [Function.operands, hhandle, Option.map_some, Option.getD_some]
    · have hunit : (f.on code).unit = f.unit := rfl
      simp only [nextExp, hunit, hinst]
      rfl
  case MutBorrowField index | ImmBorrowField index =>
    refine fieldRef_makes hop ?_ fun _ _ _ => rfl
    obtain ⟨_, hf⟩ := Option.isSome_iff_exists.mp hop
    simp only [Function.operands, arity, hf]
    rfl
  case MutBorrowFieldGeneric index =>
    refine fieldRefGeneric_makes true hop rfl fun inst hinst code _ _ => ?_
    have hunit : (f.on code).unit = f.unit := rfl
    simp only [nextExp, hunit, hinst]
  case ImmBorrowFieldGeneric index =>
    refine fieldRefGeneric_makes false hop rfl fun inst hinst code _ _ => ?_
    have hunit : (f.on code).unit = f.unit := rfl
    simp only [nextExp, hunit, hinst]

end MoveTools.Disassembler
