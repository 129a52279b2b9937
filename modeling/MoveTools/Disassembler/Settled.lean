import MoveTools.Disassembler.Heads

namespace MoveTools.Disassembler

open Attempt Interpretation

/-! Code without branches whose values are where the translator looks for them. -/

/-- On the stack are `c` values that were pushed one by one since the last statement, and below them
`m` values that only a `Pop` may take. -/
inductive Settles (f : Function) : ℕ → ℕ → List Bytecode → ℕ → ℕ → Prop
  | done {c m : ℕ} : Settles f c m [] c m
  | nop {c m c' m' : ℕ} {code : List Bytecode} (hrest : Settles f 0 (c + m) code c' m') :
      Settles f c m (.Nop :: code) c' m'
  | pop {c m n c' m' : ℕ} {code : List Bytecode} (hn : c + m = n + 1)
      (hrest : Settles f 0 n code c' m') : Settles f c m (.Pop :: code) c' m'
  | freeze {c m c' m' : ℕ} {code : List Bytecode} (hrest : Settles f (c + 1) m code c' m') :
      Settles f (c + 1) m (.FreezeRef :: code) c' m'
  | store {c m c' m' index : ℕ} {code : List Bytecode} (hindex : index < f.locals.length)
      (hrest : Settles f 0 (c + m) code c' m') : Settles f (c + 1) m (.StLoc index :: code) c' m'
  | value {c m n c' m' : ℕ} {opcode : Bytecode} {head : Head} {code : List Bytecode}
      (hhead : f.head opcode = some head)
      (harity : arity f.unit f.locals.length f.retLen opcode = some ⟨n, 1⟩)
      (hunpack : opcode.isUnpack = false) (hrest : Settles f (c + 1) m code c' m') :
      Settles f (c + n) m (opcode :: code) c' m'
  | statement {c m c' m' : ℕ} {opcode : Bytecode} {head : Head} {a : Arity} {code : List Bytecode}
      (hhead : f.head opcode = some head)
      (harity : arity f.unit f.locals.length f.retLen opcode = some a) (hpushes : a.pushes ≠ 1)
      (hunpack : opcode.isUnpack = false) (hstore : opcode.isStore = false)
      (hrest : Settles f 0 (a.pushes + c + m) code c' m') :
      Settles f (c + a.pops) m (opcode :: code) c' m'
  | unpack {c m c' m' : ℕ} {opcode : Bytecode} {head : Head} {stores code : List Bytecode}
      (hhead : f.head opcode = some head)
      (harity : arity f.unit f.locals.length f.retLen opcode = some ⟨1, stores.length⟩)
      (hunpack : opcode.isUnpack) (hstores : storesThenPops false stores.length stores = true)
      (hlocals : ∀ index, .StLoc index ∈ stores → index < f.locals.length)
      (hrest : Settles f 0 (c + m) code c' m') :
      Settles f (c + 1) m (opcode :: (stores ++ code)) c' m'

/-- What is built for the instructions behind an `Unpack`. -/
def Function.fieldsAt (f : Function) : ℕ → List Bytecode → List ExpLoc
  | _, [] => []
  | offset, .StLoc index :: code =>
    .mk offset (.Let (f.locals[index]?.getD (.Var index)) (.mk offset .Nop)) ::
      fieldsAt f (offset + 1) code
  | offset, _ :: code => .mk offset .Nop :: fieldsAt f (offset + 1) code

variable {f : Function} {opcode : Bytecode} {head : Head} {a : Arity} {code stores : List Bytecode}
  {offset index : ℕ} {es : List ExpLoc}

theorem fieldsAt_length (f : Function) (offset : ℕ) (code : List Bytecode) :
    (f.fieldsAt offset code).length = code.length := by
  induction code generalizing offset with
  | nil => rfl
  | cons opcode code ih =>
    have hcons : ∃ e, f.fieldsAt offset (opcode :: code) = e :: f.fieldsAt (offset + 1) code := by
      cases opcode <;> exact ⟨_, rfl⟩
    obtain ⟨e, he⟩ := hcons
    rw [he, List.length_cons, List.length_cons, ih]

theorem pop_turns (offset : ℕ) (es : List ExpLoc) :
    Turns f offset [.Pop] es (es ++ [.mk offset .Nop]) :=
  .single fun _ t _ _ hexp => ⟨⟨[], .Nop⟩, t, fun _ => rfl, .refl t, by rw [hexp]⟩

theorem store_exp_turns (hindex : index < f.locals.length) (offset : ℕ) (es : List ExpLoc) :
    Turns f offset [.StLoc index] es ((storeOperand offset es).2 ++
      [.mk offset (.Let f.locals[index] (storeOperand offset es).1)]) := by
  refine Turns.single fun body t _ hoffset hexp => ?_
  obtain ⟨hoperand, hleft⟩ := letOperand_eq t
  rw [hoffset, hexp] at hoperand hleft
  refine ⟨⟨[(letOperand t).1], .Let f.locals[index] (letOperand t).1⟩, (letOperand t).2, ?_,
    (letOperand_place t).1, ?_⟩
  · intro translateBlock
    have hlocal : localVar f index = .ok f.locals[index] := by
      rw [localVar, List.getElem?_eq_getElem hindex]
    have hlocal : localVar (f.on body) index = .ok f.locals[index] := hlocal
    rw [nextExp, Let.exp, hlocal]
    rfl
  · rw [hleft, hoperand]

theorem fieldsAt_turns {discards : Bool}
    (hstores : storesThenPops discards stores.length stores = true)
    (hlocals : ∀ index, .StLoc index ∈ stores → index < f.locals.length)
    (hes : discards = false → ∀ e ∈ es.getLast?, e.val.isLet) (offset : ℕ) :
    Turns f offset stores es (es ++ f.fieldsAt offset stores) := by
  induction stores generalizing discards es offset with
  | nil =>
    rw [Function.fieldsAt, List.append_nil]
    exact .nil f offset es
  | cons opcode stores ih =>
    have hrest : ∀ index, .StLoc index ∈ stores → index < f.locals.length :=
      fun index hmem => hlocals index (List.mem_cons_of_mem _ hmem)
    obtain ⟨_, _, heq, hop⟩ := storesThenPops_cons hstores
    cases heq
    rcases hop with ⟨index, rfl, rfl, hstores'⟩ | ⟨rfl, hstores'⟩
    · have hindex := hlocals index List.mem_cons_self
      have hfirst := store_exp_turns hindex offset es
      rw [storeOperand_nothing (hes rfl)] at hfirst
      have hlet : ∀ e ∈ (es ++ [ExpLoc.mk offset (.Let f.locals[index] (.mk offset .Nop))]).getLast?,
          e.val.isLet := by simp
      have hmore := ih hstores' hrest (fun _ => hlet) (offset + 1)
      rw [Function.fieldsAt, List.getElem?_eq_getElem hindex, Option.getD_some]
      have hall := hfirst.append hmore
      rwa [List.append_assoc] at hall
    · have hmore : Turns f (offset + 1) stores (es ++ [.mk offset .Nop]) _ :=
        ih hstores' hrest (fun h => by cases h) (offset + 1)
      have hall := (pop_turns offset es).append hmore
      rwa [List.append_assoc] at hall

theorem head_isUnpack (hhead : f.head opcode = some head) (hunpack : opcode.isUnpack)
    (harity : arity f.unit f.locals.length f.retLen opcode = some a) :
    ∃ index typeParams d names, f.unit.structDef index = some d ∧ d.fields = some names ∧
      head = .Unpack ⟨d.name, d.module⟩ (typeArguments f typeParams) names ∧
      a = ⟨1, names.length⟩ ∧ ∀ body translateBlock t,
        nextExp (f.on body) translateBlock opcode t =
          Unpack.exp (f.on body) translateBlock index typeParams t := by
  cases opcode
  case Unpack index =>
    obtain ⟨d, names, hd, hnames, rfl⟩ := structHead_eq hhead
    obtain ⟨n, hn, rfl⟩ := Option.map_eq_some_iff.mp harity
    rw [Option.some.inj (hn.symm.trans (fieldCount_eq hd hnames))]
    exact ⟨index, none, d, names, hd, hnames, rfl, rfl, fun _ _ _ => rfl⟩
  case UnpackGeneric index =>
    obtain ⟨inst, hinst, hhead⟩ := structHeadGeneric_eq hhead
    obtain ⟨d, names, hd, hnames, rfl⟩ := structHead_eq hhead
    obtain ⟨n, hn, rfl⟩ := Option.map_eq_some_iff.mp harity
    obtain ⟨handle, hhandle, hn⟩ := Option.bind_eq_some_iff.mp hn
    rw [structOf, hinst] at hhandle
    cases hhandle
    rw [Option.some.inj (hn.symm.trans (fieldCount_eq hd hnames))]
    refine ⟨inst.handle, some inst.typeParameters, d, names, hd, hnames, rfl, rfl,
      fun body _ _ => ?_⟩
    have hunit : (f.on body).unit = f.unit := rfl
    simp only [nextExp, hunit, hinst]
  all_goals cases hunpack

/-- The expression of an `Unpack`, given what was built of the instructions behind it. -/
def unpackExp (head : Head) (block : List ExpLoc) (source : ExpLoc) : Exp :=
  match head with
  | .Unpack name typeParams names =>
    .Unpack name typeParams (List.zipWith PackField.mk names block.reverse) source
  | _ => .Nop

theorem unpackExp_turns (hhead : f.head opcode = some head) (hunpack : opcode.isUnpack)
    (harity : arity f.unit f.locals.length f.retLen opcode = some ⟨1, stores.length⟩)
    (hstores : storesThenPops false stores.length stores = true)
    (hlocals : ∀ index, .StLoc index ∈ stores → index < f.locals.length) (offset : ℕ)
    (left : List ExpLoc) (e : ExpLoc) :
    Turns f offset (opcode :: stores) (left ++ [e]) (left ++ [.mk (offset + stores.length)
      (unpackExp head (f.fieldsAt (offset + 1) stores) e)]) := by
  obtain ⟨index, typeParams, d, names, hd, hnames, rfl, hcount, hnext⟩ :=
    head_isUnpack hhead hunpack harity
  have hlen : stores.length = names.length := congrArg Arity.pushes hcount
  have hfields : f.fields index = stores.length := by
    rw [Function.fields, hd, Option.bind_some, hnames, Option.getD_some, hlen]
  have hturns : Turns f (offset + 1) stores [] (f.fieldsAt (offset + 1) stores) :=
    fieldsAt_turns hstores hlocals (fun _ => by simp) (offset + 1)
  apply Turns.of_nextExp
  intro body t after stop hbody _ ht
  obtain ⟨t', hblock, ht'⟩ := hturns.block (Nat.succ_pos offset) hbody ht
  obtain ⟨htaken, hleft, hs⟩ := popExp_append ht'.expressions
  have hle : (f.fieldsAt (offset + 1) stores).length ≤ (f.on body).fields index :=
    Nat.le_of_eq ((fieldsAt_length f _ stores).trans hfields.symm)
  have hstep : ∀ fuel, t.rest.length < fuel →
      nextExp (f.on body) (blockWith (translate (f.on body) fuel)) opcode t = _ := fun fuel hfuel =>
    (hnext body _ t).trans (unpackExp_block (f := f.on body) hd
      (hfields ▸ hblock fuel hfuel) hle typeParams)
  refine ⟨_, _, left, hstep, ht'.of_samePlace hs hleft, ?_⟩
  have hmissing : (f.on body).fields index - (f.fieldsAt (offset + 1) stores).length = 0 :=
    Nat.sub_eq_zero_of_le (Nat.le_of_eq (hfields.trans (fieldsAt_length f _ stores).symm))
  rw [hmissing, htaken, List.replicate_zero, List.append_nil, hnames]
  rfl

end MoveTools.Disassembler
