import MoveTools.Library.Effects
import MoveTools.Disassembler.Nodes
import MoveTools.Disassembler.Straight

namespace MoveTools.Disassembler
open Effects

/-! No instruction gets lost on the way through nested blocks, and none is translated twice. -/

/-- What reading a unit has checked of an instruction: its indices lead somewhere, a field is one of
a declared struct, and a branch stays in the code. -/
def Function.InBounds (f : Function) : Bytecode → Prop
  | .BrTrue offset | .BrFalse offset | .Branch offset => offset < f.code.length
  | .CopyLoc index | .MoveLoc index | .StLoc index | .MutBorrowLoc index | .ImmBorrowLoc index =>
    index < f.locals.length
  | .Exists index | .MoveFrom index | .MoveTo index | .ImmBorrowGlobal index
  | .MutBorrowGlobal index | .Pack index | .Unpack index => (f.unit.structDef index).isSome
  | .ExistsGeneric index | .MoveFromGeneric index | .MoveToGeneric index
  | .ImmBorrowGlobalGeneric index | .MutBorrowGlobalGeneric index | .PackGeneric index
  | .UnpackGeneric index => ((structOf f.unit index).bind f.unit.structDef).isSome
  | .MutBorrowField index | .ImmBorrowField index => (hasField f.unit index).isSome
  | .MutBorrowFieldGeneric index | .ImmBorrowFieldGeneric index =>
    ((fieldOf f.unit index).bind (hasField f.unit)).isSome
  | _ => True

def Function.Loadable (f : Function) : Prop := ∀ opcode ∈ f.code, f.InBounds opcode

/-- One node for each counted instruction, of a constructor that belongs to it. -/
def Matched (opcodes : List Bytecode) (made : Multiset Exp) : Prop :=
  Multiset.Rel Belongs ↑(opcodes.filter Bytecode.isCounted) made

section
variable {opcodes opcodes' : List Bytecode} {made made' : Multiset Exp}

theorem Matched.nil : Matched [] 0 := .zero

theorem Matched.append (h : Matched opcodes made) (h' : Matched opcodes' made') :
    Matched (opcodes ++ opcodes') (made + made') := by
  rw [Matched, List.filter_append, ← Multiset.coe_add]
  exact Multiset.Rel.add h h'

theorem Matched.perm (h : Matched opcodes made) (hp : opcodes.Perm opcodes') :
    Matched opcodes' made := by
  rw [Matched, ← Multiset.coe_eq_coe.mpr (hp.filter _)]
  exact h

theorem Matched.uncounted {opcode : Bytecode} (h : opcode.isCounted = false) :
    Matched [opcode] 0 := by
  simp [Matched, h]

theorem Matched.single {opcode : Bytecode} {e : Exp} (h : opcode.isCounted) (hb : Belongs opcode e) :
    Matched [opcode] {e} := by
  simp only [Matched, List.filter_cons, h, if_true, List.filter_nil]
  exact .cons hb .zero

/-- One node may be exchanged for another that belongs wherever it does. -/
theorem Matched.exchange {e e' : Exp} (h : Matched opcodes (made + {e}))
    (he : ∀ opcode, Belongs opcode e → Belongs opcode e') : Matched opcodes (made + {e'}) := by
  rw [add_comm, Multiset.singleton_add] at h
  obtain ⟨a, as, ha, has, heq⟩ := Multiset.rel_cons_right.mp h
  rw [Matched, heq, add_comm, Multiset.singleton_add]
  exact .cons (he a ha) has

end

/-- On the way from `t` to `t'`, `gained` was taken from the list or built in blocks. With it, and
with what is left on the list, there is a node more for each of `opcodes` and of the instructions
that the iterator gave meanwhile. -/
structure Conserves (f : Function) (opcodes : List Bytecode) (gained : Multiset Exp)
    (t t' : Translator) : Prop where
  inStep : InStep f t → InStep f t'
  endOffset : t'.endOffset = t.endOffset
  kept : ∃ consumed made, t.rest = consumed ++ t'.rest ∧ Matched (opcodes ++ consumed) made ∧
    gained + weight t'.expressions = weight t.expressions + made

section
variable {f : Function} {opcode : Bytecode} {opcodes opcodes' : List Bytecode}
  {gained gained' : Multiset Exp} {t t' t'' : Translator}

theorem Conserves.trans (h : Conserves f opcodes gained t t')
    (h' : Conserves f opcodes' gained' t' t'') :
    Conserves f (opcodes ++ opcodes') (gained + gained') t t'' := by
  obtain ⟨consumed, made, hrest, hkept, heq⟩ := h.kept
  obtain ⟨consumed', made', hrest', hkept', heq'⟩ := h'.kept
  refine ⟨fun hs => h'.inStep (h.inStep hs), h'.endOffset.trans h.endOffset,
    consumed ++ consumed', made + made', ?_, ?_, ?_⟩
  · rw [hrest, hrest', List.append_assoc]
  · refine (hkept.append hkept').perm ?_
    rw [List.append_assoc, List.append_assoc]
    refine .append_left _ ?_
    rw [← List.append_assoc, ← List.append_assoc]
    exact .append_right _ List.perm_append_comm
  · rw [add_assoc, heq', ← add_assoc, heq, add_assoc]

theorem Conserves.of_samePlace (hs : SamePlace t t')
    (h : gained + weight t'.expressions = weight t.expressions) : Conserves f [] gained t t' := by
  refine ⟨fun hin => ?_, hs.endOffset, [], 0, hs.rest.symm, .nil, by rw [h, add_zero]⟩
  rw [InStep, hs.rest, hs.next]
  exact hin

theorem Conserves.refl (t : Translator) : Conserves f [] 0 t t :=
  .of_samePlace (.refl t) (zero_add _)

theorem Conserves.rest_length (h : Conserves f opcodes gained t t') :
    t'.rest.length ≤ t.rest.length := by
  obtain ⟨consumed, _, hrest, _⟩ := h.kept
  rw [hrest, List.length_append]
  omega

theorem Conserves.make {e : Exp} (h : Conserves f [] (weight e.parts) t t')
    (hf : e.isFiller = false) (hc : opcode.isCounted) (hb : Belongs opcode e) (index : ℕ) :
    Conserves f [opcode] (weight [.mk index e]) t t' := by
  obtain ⟨consumed, made, hrest, hkept, heq⟩ := h.kept
  rw [List.nil_append] at hkept
  refine ⟨h.inStep, h.endOffset, consumed, {e} + made, hrest,
    (Matched.single hc hb).append hkept, ?_⟩
  rw [weight_mk, hf, if_neg Bool.false_ne_true, add_assoc, heq, add_left_comm]

theorem Conserves.pass (h : Conserves f [] gained t t') (hc : opcode.isCounted = false) :
    Conserves f [opcode] gained t t' := by
  obtain ⟨consumed, made, hrest, hkept, heq⟩ := h.kept
  have hkept' := (Matched.uncounted hc).append hkept
  rw [zero_add, List.nil_append] at hkept'
  exact ⟨h.inStep, h.endOffset, consumed, made, hrest, hkept', heq⟩

/-! ### Taking from the list -/

theorem popExp_conserves (t : Translator) : Conserves f [] (weight [t.popExp.1]) t t.popExp.2 := by
  apply Conserves.of_samePlace (popExp_taken t).2
  rcases List.eq_nil_or_concat t.expressions with h | ⟨l, e, h⟩
  · have hpop : t.popExp = (.mk 0 .Nop, t) := by simp [Translator.popExp, h]
    rw [hpop, weight_nop, zero_add]
  · have hpop : t.popExp = (e, { t with expressions := l }) := by simp [Translator.popExp, h]
    rw [hpop, h, List.concat_eq_append, weight_append, add_comm]

theorem popExpVec_conserves (t : Translator) (n : ℕ) :
    Conserves f [] (weight (t.popExpVec n).1) t (t.popExpVec n).2 := by
  apply Conserves.of_samePlace (popExpVec_taken t n).2
  unfold Translator.popExpVec
  dsimp only
  split
  · rw [Translator.loc, weight_append, weight_replicate_nop, weight_nil, add_zero, add_zero]
  · rw [← weight_append, ← weight_perm List.perm_append_comm, List.take_append_drop]

theorem popExpTimes_conserves (n : ℕ) (t : Translator) :
    Conserves f [] (weight (t.popExpTimes n).1) t (t.popExpTimes n).2 := by
  induction n generalizing t with
  | zero => exact .refl t
  | succ n ih =>
    have hpop : t.popExpTimes (n + 1) = (t.popExp.1 :: (t.popExp.2.popExpTimes n).1,
        (t.popExp.2.popExpTimes n).2) := rfl
    rw [hpop, weight_cons]
    exact (popExp_conserves t).trans (ih t.popExp.2)

theorem letOperand_conserves (t : Translator) :
    Conserves f [] (weight [(letOperand t).1]) t (letOperand t).2 := by
  have hnone : Conserves f [] (weight [t.loc .Nop]) t t := by
    rw [Translator.loc, weight_nop]
    exact .refl t
  unfold letOperand
  split
  · split
    · exact hnone
    · exact popExp_conserves t
  · exact hnone

/-! ### Instructions without blocks -/

/-- An instruction that builds `b` accounts for itself, and for what it has taken. -/
def Accounts (f : Function) (opcode : Bytecode) (t : Translator) (r : Built × Translator) : Prop :=
  ∀ index, Conserves f [opcode] (weight [.mk index r.1.exp]) t r.2

theorem leaf_accounts {e : Exp} (hparts : e.parts = []) (hf : e.isFiller = false)
    (hc : opcode.isCounted) (hb : Belongs opcode e) (t : Translator) (operands : List ExpLoc) :
    Accounts f opcode t (⟨operands, e⟩, t) := by
  intro index
  apply Conserves.make _ hf hc hb
  rw [hparts, weight_nil]
  exact .refl t

theorem nop_accounts {e : Exp} (he : e = .Nop ∨ e = .Continue) (hc : opcode.isCounted = false)
    (t : Translator) : Accounts f opcode t (⟨[], e⟩, t) := by
  intro index
  apply Conserves.pass _ hc
  rcases he with rfl | rfl
  · rw [weight_nop]
    exact .refl t
  · rw [weight_continue]
    exact .refl t

theorem local_accounts {e : Exp} (l : Local) (hparts : e.parts = []) (hf : e.isFiller = false)
    (hc : opcode.isCounted) (hb : Belongs opcode e) (t : Translator) :
    Accounts f opcode t (⟨[], e⟩, t.markAsUsed l) := by
  intro index
  apply Conserves.make _ hf hc hb
  rw [hparts, weight_nil]
  exact .of_samePlace ⟨rfl, rfl, rfl, rfl⟩ (zero_add _)

theorem popUnary_accounts {make : ExpLoc → Exp} (hparts : ∀ e, (make e).parts = [e])
    (hf : ∀ e, (make e).isFiller = false) (hc : opcode.isCounted)
    (hb : ∀ e, Belongs opcode (make e)) (t : Translator) :
    Accounts f opcode t (popUnary make t) := by
  intro index
  apply Conserves.make _ (hf _) hc (hb _)
  rw [hparts]
  exact popExp_conserves t

theorem freezeRef_accounts (t : Translator) : Accounts f .FreezeRef t (freezeRef t) := by
  intro index
  have hval : weight [.mk index (freezeRef t).1.exp] = weight [t.popExp.1] := weight_val index _
  rw [hval]
  exact (popExp_conserves t).pass rfl

theorem pop2Exp_conserves (t : Translator) :
    Conserves f [] (weight [t.pop2Exp.1, t.pop2Exp.2.1]) t t.pop2Exp.2.2 := by
  have h := popExpTimes_conserves (f := f) 2 t
  have hperm : [t.pop2Exp.2.1, t.pop2Exp.1].Perm [t.pop2Exp.1, t.pop2Exp.2.1] := .swap _ _ _
  rw [← weight_perm hperm]
  exact h

theorem binaryOp_accounts {sign : Op} (hc : opcode.isCounted)
    (hb : Op.ofBytecode opcode = some sign) (t : Translator) :
    Accounts f opcode t (BinaryOp.exp sign t) := by
  intro index
  refine Conserves.make ?_ rfl hc ?_ index
  case refine_2 => exact hb
  change Conserves f [] (weight [basket t.pop2Exp.1, basket t.pop2Exp.2.1]) t t.pop2Exp.2.2
  rw [weight_cons, weight_basket, weight_basket, ← weight_cons]
  exact pop2Exp_conserves t

theorem writeRef_accounts (t : Translator) : Accounts f .WriteRef t (WriteRef.exp t) :=
  fun index => (pop2Exp_conserves t).make (e := .WriteRef t.pop2Exp.1 t.pop2Exp.2.1) rfl rfl rfl
    index

theorem ret_accounts (n : ℕ) (t : Translator) : Accounts f .Ret t (Ret.exp n t) := by
  intro index
  refine Conserves.make ?_ rfl rfl ?_ index
  case refine_2 => exact rfl
  change Conserves f [] (weight (t.popExpTimes n).1.reverse) t (t.popExpTimes n).2
  rw [weight_perm (List.reverse_perm _)]
  exact popExpTimes_conserves n t

theorem fnCall_accounts {callee : Callee} (hc : opcode.isCounted)
    (hb : ∀ params, Belongs opcode (.FnCall callee params)) (n : ℕ) (t : Translator) :
    Accounts f opcode t
      (⟨(t.popExpVec n).1, .FnCall callee (t.popExpVec n).1⟩, (t.popExpVec n).2) :=
  fun index => (popExpVec_conserves t n).make (e := .FnCall callee (t.popExpVec n).1) rfl hc (hb _)
    index

theorem ldConst_accounts (index : ℕ) (t : Translator) :
    Accounts f (.LdConst index) t (Ld.ldConst f index t) := by
  unfold Ld.ldConst
  split
  · refine leaf_accounts rfl rfl rfl ?_ t []
    exact ⟨index, rfl⟩
  · dsimp only
    split
    · refine leaf_accounts rfl rfl rfl ?_ t []
      exact ⟨index, rfl⟩
    · refine leaf_accounts rfl rfl rfl ?_ t []
      exact rfl
  · refine leaf_accounts rfl rfl rfl ?_ t []
    exact rfl

theorem isSome_bind {α β : Type} {o : Option α} {g : α → Option β} (h : (o.bind g).isSome) :
    ∃ a, o = some a ∧ (g a).isSome := by
  cases o with
  | none => cases h
  | some a => exact ⟨a, rfl, h⟩

theorem buildIn_accounts (kind : BuildIn) {index : ℕ} (hd : (f.unit.structDef index).isSome)
    (hc : opcode.isCounted) (hb : BuildIn.ofBytecode opcode = some kind) (typeParams : Option ℕ)
    (t : Translator) : Accounts f opcode t (FnCall.buildIn f kind index typeParams t) := by
  obtain ⟨d, hd⟩ := Option.isSome_iff_exists.mp hd
  simp only [FnCall.buildIn, hd]
  refine fnCall_accounts hc (fun _ => ?_) _ t
  exact hb

theorem buildInGeneric_accounts (kind : BuildIn) {index : ℕ}
    (hd : ((structOf f.unit index).bind f.unit.structDef).isSome) (hc : opcode.isCounted)
    (hb : BuildIn.ofBytecode opcode = some kind) (t : Translator) :
    Accounts f opcode t (FnCall.buildInGeneric f index kind opcode t) := by
  obtain ⟨handle, hhandle, hd⟩ := isSome_bind hd
  obtain ⟨inst, hinst, rfl⟩ := Option.map_eq_some_iff.mp hhandle
  simp only [FnCall.buildInGeneric, hinst]
  exact buildIn_accounts kind hd hc hb _ t

theorem pack_accounts {index : ℕ} (hd : (f.unit.structDef index).isSome) (hc : opcode.isCounted)
    (hb : ∀ name typeParams fields, Belongs opcode (.Pack name typeParams fields))
    (typeParams : Option ℕ) (t : Translator) :
    Accounts f opcode t (Pack.exp f index typeParams t) := by
  obtain ⟨d, hd⟩ := Option.isSome_iff_exists.mp hd
  simp only [Pack.exp, hd, packFields]
  cases d.fields with
  | none => exact leaf_accounts rfl rfl hc (hb _ _ _) t []
  | some names =>
    intro index
    refine Conserves.make ?_ rfl hc (hb _ _ _) index
    have hlen := (popExpVec_taken t names.length).1.length
    have hvalues := values_of_fields (Nat.le_of_eq hlen)
    rw [Exp.parts, hvalues]
    exact popExpVec_conserves t names.length

theorem fieldRef_accounts {index : ℕ} (hf : (hasField f.unit index).isSome) (isMut : Bool)
    (hc : opcode.isCounted) (hb : ∀ name e, Belongs opcode (.FieldRef isMut name e))
    (t : Translator) : Accounts f opcode t (FieldRef.exp f index isMut t) := by
  obtain ⟨u, hf⟩ := Option.isSome_iff_exists.mp hf
  simp only [hasField, Option.bind_eq_some_iff, Option.map_eq_some_iff] at hf
  obtain ⟨field, hfield, d, hd, names, hnames, name, hname, _⟩ := hf
  simp only [FieldRef.exp, hfield, Option.bind_some, hd, Option.map_some, hnames, hname]
  exact popUnary_accounts (fun _ => rfl) (fun _ => rfl) hc (hb name) t

/-- The step accounts for its instruction, or it panics. -/
def Sound (f : Function) (opcode : Bytecode) (t : Translator) (step : Step) : Prop :=
  Outcome step (Accounts f opcode t) (· = .panic)

theorem localVar_sound {index : ℕ} {t : Translator} {k : Local → Step}
    (h : ∀ l, Sound f opcode t (k l)) : Sound f opcode t (localVar f index >>= k) := by
  refine Outcome.bind (P := fun _ => True) ?_ fun l _ => h l
  unfold localVar
  split
  · trivial
  · exact rfl

theorem let_sound (index : ℕ) (t : Translator) :
    Sound f (.StLoc index) t (Let.exp f index t) := by
  apply localVar_sound
  intro l i
  refine (letOperand_conserves t).make (e := .Let l (letOperand t).1) rfl rfl ?_ i
  exact ⟨index, rfl⟩

/-! ### Blocks -/

/-- What was translated in a block of its own is all in its list. -/
structure BlockKept (f : Function) (block : List ExpLoc) (t t' : Translator) : Prop where
  inStep : InStep f t → InStep f t'
  endOffset : t'.endOffset = t.endOffset
  expressions : t'.expressions = t.expressions
  kept : ∃ consumed, t.rest = consumed ++ t'.rest ∧ Matched consumed (weight block)

theorem BlockKept.conserves {block : List ExpLoc} (h : BlockKept f block t t') :
    Conserves f [] (weight block) t t' := by
  obtain ⟨consumed, hrest, hkept⟩ := h.kept
  refine ⟨h.inStep, h.endOffset, consumed, weight block, hrest, hkept, ?_⟩
  rw [h.expressions, add_comm]

/-- Blocks over at most `n` instructions lose nothing. -/
def KeepsBlocks (f : Function) (n : ℕ) (translateBlock : ℕ → Translator → BlockStep) : Prop :=
  ∀ size t, InStep f t → t.rest.length ≤ n →
    Outcome (translateBlock size t) (fun x => BlockKept f x.1 t x.2) (· = .panic)

theorem blockWith_keeps {translateFrom : Translator → Except Stop Translator} {n : ℕ}
    (h : ∀ t, InStep f t → t.rest.length ≤ n →
      Outcome (translateFrom t) (Conserves f [] 0 t) (· = .panic)) :
    KeepsBlocks f n (blockWith translateFrom) := by
  intro size t hin hlen
  have hinner := h (t.inner size) hin hlen
  refine Outcome.bind hinner fun inner hrun => ?_
  obtain ⟨consumed, made, hrest, hkept, heq⟩ := hrun.kept
  refine ⟨fun _ => hrun.inStep hin, rfl, rfl, consumed, hrest, ?_⟩
  have hall : weight inner.expressions = made := by
    rw [zero_add] at heq
    rw [heq, Translator.inner, weight_nil, zero_add]
  rw [hall]
  exact hkept

theorem usub_ok {a b : ℕ} (h : b ≤ a) : usub a b = .ok (a - b) := if_pos h

theorem usub_panic {a b : ℕ} (h : a < b) : usub a b = .error .panic := if_neg (by omega)

theorem usub_outcome (a b : ℕ) :
    Outcome (usub a b) (fun c => b ≤ a ∧ c = a - b) (· = .panic) := by
  rcases Nat.lt_or_ge a b with h | h
  · rw [usub_panic h]
    exact rfl
  · rw [usub_ok h]
    exact ⟨h, rfl⟩

/-! ### Conditionals -/

/-- The false branch is left out when there is nothing in it. -/
theorem weight_branchOf (block : List ExpLoc) :
    weight ((if block.isEmpty then none else some (Block.mk block true)).elim [] Block.exp) =
      weight block := by
  cases block <;> rfl

theorem eq_dropLast_append {es : List ExpLoc} {e : ExpLoc} (h : es.getLast? = some e) :
    es = es.dropLast ++ [e] :=
  (List.dropLast_append_getLast? e h).symm

theorem BlockKept.explicitRet {block : List ExpLoc} {index : ℕ} {retList : List ExpLoc}
    {explicitKeyword : Bool} (h : BlockKept f block t t')
    (hlast : block.getLast? = some (.mk index (.Ret retList explicitKeyword))) :
    BlockKept f (block.dropLast ++ [.mk index (.Ret retList true)]) t t' := by
  have hweight : ∀ keyword, weight (block.dropLast ++ [.mk index (.Ret retList keyword)]) =
      weight block.dropLast + weight retList + {.Ret retList keyword} := by
    intro keyword
    have hf : (Exp.Ret retList keyword).isFiller = false := rfl
    rw [weight_append, weight_mk, hf, if_neg Bool.false_ne_true, add_comm {_}, ← add_assoc,
      Exp.parts]
  obtain ⟨consumed, hrest, hkept⟩ := h.kept
  rw [eq_dropLast_append hlast, hweight] at hkept
  refine ⟨h.inStep, h.endOffset, h.expressions, consumed, hrest, ?_⟩
  rw [hweight]
  exact hkept.exchange fun _ hb => hb

theorem if_accounts {offset : ℕ} {block : List ExpLoc} {falseBranch : Option Block}
    (h : Conserves f [] (weight block + weight (falseBranch.elim [] Block.exp)) t t') :
    Accounts f (.BrTrue offset) t (popUnary (fun c => .If c (.mk block true) falseBranch) t') := by
  intro i
  refine Conserves.make ?_ rfl rfl ?_ i
  case refine_2 => exact ⟨offset, rfl⟩
  have hall := h.trans (popExp_conserves t')
  have hparts : weight (Exp.If t'.popExp.1 (.mk block true) falseBranch).parts =
      weight block + weight (falseBranch.elim [] Block.exp) + weight [t'.popExp.1] := by
    cases falseBranch with
    | none => rw [Exp.parts, weight_cons, Option.elim_none, weight_nil, add_zero, add_comm, Block.exp]
    | some b => rw [Exp.parts, weight_cons, weight_append, add_comm, Option.elim_some, Block.exp]
  rw [popUnary, hparts]
  exact hall

section
variable {n : ℕ} {translateBlock : ℕ → Translator → BlockStep}
  (hblocks : KeepsBlocks f n translateBlock) (hin : InStep f t) (hlen : t.rest.length ≤ n)
include hblocks hin hlen

theorem unpack_sound {index : ℕ} (hd : (f.unit.structDef index).isSome) (hc : opcode.isCounted)
    (hb : ∀ name typeParams fields source,
      Belongs opcode (.Unpack name typeParams fields source)) (typeParams : Option ℕ) :
    Sound f opcode t (Unpack.exp f translateBlock index typeParams t) := by
  obtain ⟨d, hd⟩ := Option.isSome_iff_exists.mp hd
  simp only [Unpack.exp, hd]
  refine Outcome.bind (hblocks _ t hin hlen) fun x hx => ?_
  refine Outcome.bind (usub_outcome _ _) fun missing hm => ?_
  intro i
  refine Conserves.make ?_ rfl hc (hb _ _ _ _) i
  have hlength : (x.1.reverse ++ List.replicate missing (x.2.loc .Nop)).length ≤
      (d.fields.getD []).length := by
    rw [List.length_append, List.length_reverse, List.length_replicate]
    omega
  rw [Exp.parts, values_of_fields hlength, weight_append, weight_append, Translator.loc,
    weight_replicate_nop, add_zero, weight_perm (List.reverse_perm _)]
  exact hx.conserves.trans (popExp_conserves x.2)

theorem brTrueAlone_sound (offset : ℕ) :
    Sound f (.BrTrue offset) t (brTrueAlone translateBlock offset t) := by
  unfold brTrueAlone
  split
  · refine popUnary_accounts (fun _ => rfl) (fun _ => rfl) rfl (fun _ => ?_) t
    exact ⟨offset, rfl⟩
  · refine Outcome.bind (usub_outcome _ _) fun distance _ => ?_
    refine Outcome.bind (usub_outcome _ _) fun size _ => ?_
    refine Outcome.bind (hblocks size t hin hlen) fun x hx => ?_
    have hlen' : x.2.rest.length ≤ n := hx.conserves.rest_length.trans hlen
    refine Outcome.bind (hblocks _ x.2 (hx.inStep hin) hlen') fun y hy => ?_
    apply if_accounts
    rw [weight_branchOf, add_comm (weight y.1)]
    exact hx.conserves.trans hy.conserves

theorem falseBranchOf_outcome (falseOffsetStart : ℕ) (falseOffsetEnd : Option ℕ) :
    Outcome (falseBranchOf translateBlock falseOffsetStart falseOffsetEnd t)
      (fun x => Conserves f [] (weight (x.1.elim [] Block.exp)) t x.2) (· = .panic) := by
  have hnone : Conserves f [] (weight []) t t := .refl t
  unfold falseBranchOf
  split
  · split
    · change Conserves f [] (weight [t.loc .Continue]) t t
      rw [Translator.loc, weight_continue]
      exact hnone
    · refine Outcome.bind (usub_outcome _ _) fun size _ => ?_
      split
      · exact hnone
      · refine Outcome.bind (hblocks size t hin hlen) fun x hx => ?_
        have hbranch := weight_branchOf x.1
        refine Outcome.ok ?_
        rw [hbranch]
        exact hx.conserves
  · exact hnone

theorem if_sound {block : List ExpLoc} (hx : BlockKept f block t t')
    (offset falseOffsetStart : ℕ) (falseOffsetEnd : Option ℕ) :
    Sound f (.BrTrue offset) t (falseBranchOf translateBlock falseOffsetStart falseOffsetEnd t' >>=
      fun x => pure (popUnary (fun c => .If c (.mk block true) x.1) x.2)) := by
  have hlen' : t'.rest.length ≤ n := hx.conserves.rest_length.trans hlen
  refine Outcome.bind (falseBranchOf_outcome hblocks (hx.inStep hin) hlen' _ _) fun y hy => ?_
  exact if_accounts (hx.conserves.trans hy)

theorem brTrueBranch_sound (offset trueOffset falseOffsetStart : ℕ) :
    Sound f (.BrTrue offset) t
      (brTrueBranch f translateBlock trueOffset falseOffsetStart t) := by
  unfold brTrueBranch
  split
  · apply if_accounts
    rw [Translator.loc, weight_continue, Option.elim_none, weight_nil, add_zero]
    exact .refl t
  · refine Outcome.bind (usub_outcome _ _) fun size _ => ?_
    refine Outcome.bind (hblocks size t hin hlen) fun x hx => ?_
    dsimp only
    split
    case h_1 hlast => exact if_sound hblocks hin hlen (hx.explicitRet hlast) offset _ none
    case h_2 hlast =>
      split
      · split
        · -- the jump back to the condition is dropped
          intro i
          refine Conserves.make ?_ rfl rfl ?_ i
          case refine_2 => exact ⟨offset, rfl⟩
          have hbody : weight x.1 = weight x.1.dropLast := by
            conv_lhs => rw [eq_dropLast_append hlast, weight_append, weight_continue, add_zero]
          have hall := hx.conserves.trans (popExp_conserves x.2)
          rw [hbody, add_comm, ← weight_cons] at hall
          exact hall
        · exact if_sound hblocks hin hlen hx offset _ none
      · exact if_sound hblocks hin hlen hx offset _ none
    case h_3 =>
      split
      · exact if_sound hblocks hin hlen hx offset _ _
      · exact if_sound hblocks hin hlen hx offset _ none
    case h_4 => exact if_sound hblocks hin hlen hx offset _ none

end

theorem nextOpcode_branch {offset : ℕ} (hin : InStep f t) (hpos : 0 < t.next)
    (h : opcodeAt f (t.opcodeOffset + 1) = .Branch offset) :
    ∃ code, t.rest = .Branch offset :: code ∧ t.nextOpcode.2 = t.advance code := by
  have hnext : t.opcodeOffset + 1 = t.next := by
    rw [t.opcodeOffset_eq]
    omega
  rw [hnext, opcodeAt, ← List.head?_drop, ← hin] at h
  cases hr : t.rest with
  | nil =>
    rw [hr] at h
    cases h
  | cons opcode code =>
    rw [hr] at h
    cases h
    exact ⟨code, rfl, by rw [nextOpcode_cons hr]⟩

theorem Conserves.advance {code : List Bytecode} (hr : t.rest = opcode :: code)
    (hc : opcode.isCounted = false) : Conserves f [] 0 t (t.advance code) :=
  ⟨fun hin => (hin.cons hr).2.2, rfl, [opcode], 0, hr, .uncounted hc, add_comm _ _⟩

theorem Conserves.push {code : List Bytecode} {b : Built}
    (h : Conserves f [opcode] (weight [t'.loc b.exp]) (t.advance code) t')
    (hr : t.rest = opcode :: code) (offset : ℕ) : Conserves f [] 0 t (t'.push offset b) := by
  obtain ⟨consumed, made, hrest, hkept, heq⟩ := h.kept
  refine ⟨fun hin => h.inStep (hin.cons hr).2.2, h.endOffset, opcode :: consumed, made, ?_, hkept, ?_⟩
  · rw [hr, List.cons_append]
    exact congrArg (opcode :: ·) hrest
  · rw [Translator.push, weight_append, zero_add, add_comm]
    exact heq

section
variable {n : ℕ} {translateBlock : ℕ → Translator → BlockStep}
  (hblocks : KeepsBlocks f n translateBlock) (hin : InStep f t) (hlen : t.rest.length ≤ n)
include hblocks hin hlen

theorem brTrue_sound (offset : ℕ) (hpos : 0 < t.next) :
    Sound f (.BrTrue offset) t (brTrue f translateBlock offset t) := by
  unfold brTrue
  split
  case h_1 falseOffset hbranch =>
    obtain ⟨code, hr, hnext⟩ := nextOpcode_branch hin hpos hbranch
    have hadvance : Conserves f [] 0 t (t.advance code) := .advance hr rfl
    have hlen' : (t.advance code).rest.length ≤ n := hadvance.rest_length.trans hlen
    rw [hnext]
    refine (brTrueBranch_sound hblocks (hadvance.inStep hin) hlen' offset offset
      falseOffset).mono fun r hr' i => ?_
    have hall := hadvance.trans (hr' i)
    rwa [zero_add] at hall
  case h_2 => exact brTrueAlone_sound hblocks hin hlen offset

/-! ### Every instruction -/

theorem nextExp_sound (hpos : 0 < t.next) (hop : f.InBounds opcode) :
    Sound f opcode t (nextExp f translateBlock opcode t) := by
  cases opcode
  case Pop | Nop => exact nop_accounts (.inl rfl) rfl t
  case FreezeRef => exact freezeRef_accounts t
  case Branch offset =>
    change Accounts f (.Branch offset) t (br offset t)
    unfold br
    split
    · exact nop_accounts (.inl rfl) rfl t
    · exact nop_accounts (.inr rfl) rfl t
  case BrFalse =>
    refine leaf_accounts rfl rfl rfl ?_ t []
    exact rfl
  case BrTrue offset => exact brTrue_sound hblocks hin hlen offset hpos
  case Not | Abort | CastU8 | CastU64 | CastU128 | ReadRef =>
    refine popUnary_accounts (fun _ => rfl) (fun _ => rfl) rfl (fun _ => ?_) t
    exact rfl
  case Add | Sub | Mul | Mod | Div | BitOr | BitAnd | Xor | Or | And | Eq | Neq
      | Lt | Gt | Le | Ge | Shl | Shr => exact binaryOp_accounts rfl rfl t
  case WriteRef => exact writeRef_accounts t
  case Ret => exact ret_accounts f.retLen t
  case LdU8 | LdU64 | LdU128 | LdTrue | LdFalse =>
    refine leaf_accounts rfl rfl rfl ?_ t []
    exact rfl
  case LdConst index => exact ldConst_accounts index t
  case StLoc index => exact let_sound index t
  case CopyLoc index | MoveLoc index | MutBorrowLoc index | ImmBorrowLoc index =>
    refine localVar_sound fun l => local_accounts l rfl rfl rfl ?_ t
    exact ⟨index, rfl⟩
  case Call index =>
    refine fnCall_accounts rfl (fun _ => ?_) _ t
    exact ⟨index, .inl rfl⟩
  case CallGeneric index =>
    refine fnCall_accounts rfl (fun _ => ?_) _ t
    exact ⟨index, .inr rfl⟩
  case Exists | MoveFrom | MoveTo | ImmBorrowGlobal | MutBorrowGlobal =>
    exact buildIn_accounts _ hop rfl rfl none t
  case ExistsGeneric | MoveFromGeneric | MoveToGeneric | ImmBorrowGlobalGeneric
      | MutBorrowGlobalGeneric => exact buildInGeneric_accounts _ hop rfl rfl t
  case Pack index =>
    refine pack_accounts hop rfl (fun _ _ _ => ?_) none t
    exact ⟨index, .inl rfl⟩
  case PackGeneric index =>
    obtain ⟨handle, hhandle, hd⟩ := isSome_bind hop
    obtain ⟨inst, hinst, rfl⟩ := Option.map_eq_some_iff.mp hhandle
    simp only [nextExp, hinst]
    refine pack_accounts hd rfl (fun _ _ _ => ?_) _ t
    exact ⟨index, .inr rfl⟩
  case Unpack index =>
    refine unpack_sound hblocks hin hlen hop rfl (fun _ _ _ _ => ?_) none
    exact ⟨index, .inl rfl⟩
  case UnpackGeneric index =>
    obtain ⟨handle, hhandle, hd⟩ := isSome_bind hop
    obtain ⟨inst, hinst, rfl⟩ := Option.map_eq_some_iff.mp hhandle
    simp only [nextExp, hinst]
    refine unpack_sound hblocks hin hlen hd rfl (fun _ _ _ _ => ?_) _
    exact ⟨index, .inr rfl⟩
  case MutBorrowField index | ImmBorrowField index =>
    refine fieldRef_accounts hop _ rfl (fun _ _ => ?_) t
    exact ⟨index, .inl rfl⟩
  case MutBorrowFieldGeneric index | ImmBorrowFieldGeneric index =>
    obtain ⟨handle, hhandle, hd⟩ := isSome_bind hop
    obtain ⟨inst, hinst, rfl⟩ := Option.map_eq_some_iff.mp hhandle
    simp only [nextExp, hinst]
    refine fieldRef_accounts hd _ rfl (fun _ _ => ?_) t
    exact ⟨index, .inr rfl⟩

end

theorem translate_conserves (hload : f.Loadable) (fuel : ℕ) (t : Translator) (hin : InStep f t)
    (hfuel : t.rest.length < fuel) :
    Outcome (translate f fuel t) (Conserves f [] 0 t) (· = .panic) := by
  induction fuel generalizing t with
  | zero => omega
  | succ fuel ih =>
    by_cases he : t.opcodeOffset < t.endOffset
    · cases hr : t.rest with
      | nil =>
        have hend : Conserves f [] 0 t (t.advance []) := by
          refine ⟨fun _ => ?_, rfl, [], 0, hr, .nil, add_comm _ _⟩
          have hdrop : f.code.drop t.next = [] := hin.symm.trans hr
          change [] = f.code.drop (t.next + 1)
          rw [← List.tail_drop, hdrop, List.tail_nil]
        rcases translate_nil f hr fuel with hstop | ⟨_, hstop⟩
        · rw [hstop]
          exact .refl t
        · rw [hstop]
          exact hend
      | cons opcode code =>
        obtain ⟨hget, _, hin'⟩ := hin.cons hr
        rw [hr, List.length_cons] at hfuel
        -- blocks run over fewer instructions
        have hblocks : KeepsBlocks f code.length (blockWith (translate f fuel)) :=
          blockWith_keeps fun u hu hlen => ih u hu (by omega)
        rw [translate_cons f hr he]
        refine Outcome.bind (nextExp_sound hblocks hin' (Nat.le_refl _) (Nat.succ_pos _)
          (hload opcode (List.mem_of_getElem? hget))) fun r hstep => ?_
        have hpush : Conserves f [] 0 t (r.2.push t.next r.1) := (hstep _).push hr t.next
        have hlen : (r.2.push t.next r.1).rest.length < fuel := by
          have := (hstep 0).rest_length
          change r.2.rest.length < fuel
          change r.2.rest.length ≤ code.length at this
          omega
        refine (ih _ (hpush.inStep hin) hlen).mono fun t' hrun => ?_
        have hall := hpush.trans hrun
        rwa [zero_add] at hall
    · rw [translate_stop f he]
      exact .refl t

end

theorem translate_end (f : Function) {fuel : ℕ} {t t' : Translator}
    (h : translate f fuel t = .ok t') : t'.rest = [] ∨ t'.endOffset ≤ t'.opcodeOffset := by
  induction fuel generalizing t with
  | zero => cases h
  | succ fuel ih =>
    by_cases he : t.opcodeOffset < t.endOffset
    · cases hr : t.rest with
      | nil =>
        rcases translate_nil f hr fuel with hstop | ⟨_, hstop⟩
        · exact .inl (Except.ok.inj (hstop.symm.trans h) ▸ hr)
        · exact .inl (Except.ok.inj (hstop.symm.trans h) ▸ rfl)
      | cons opcode code =>
        rw [translate_cons f hr he] at h
        obtain ⟨r, _, hrest⟩ := Collect.bind_eq_ok.mp h
        exact ih hrest
    · have hstop := Except.ok.inj ((translate_stop f he fuel).symm.trans h)
      exact .inr (hstop ▸ Nat.le_of_not_lt he)

theorem body_rest (f : Function) {fuel : ℕ} {t : Translator} (hin : InStep f t)
    (hend : t.endOffset = f.code.length) (h : translate f fuel (bodyTranslator f) = .ok t) :
    t.rest = [] := by
  rcases translate_end f h with hrest | hle
  · exact hrest
  · rw [hin, List.drop_eq_nil_iff]
    rw [hend, t.opcodeOffset_eq] at hle
    omega

/-- Whatever its branches are, a body that can be loaded is translated, unless a subtraction of
offsets underflows, and each instruction that is counted has one node in the result. -/
theorem instructions_conserved (f : Function) (hload : f.Loadable) (fuel : ℕ)
    (hfuel : f.code.length < fuel) (hsub : translate f fuel (bodyTranslator f) ≠ .error .panic) :
    ∃ t, translate f fuel (bodyTranslator f) = .ok t ∧
      Multiset.Rel Belongs ↑(f.code.filter Bytecode.isCounted)
        ↑((nodesOf t.expressions).filter fun e => !e.isFiller) := by
  have hrun := translate_conserves hload fuel (bodyTranslator f) rfl hfuel
  obtain ⟨t, ht, hconserves⟩ := hrun.exists_ok fun e he => he ▸ hsub
  refine ⟨t, ht, ?_⟩
  have hend := body_rest f (hconserves.inStep rfl) hconserves.endOffset ht
  obtain ⟨consumed, made, hrest, hkept, hweight⟩ := hconserves.kept
  rw [hend, List.append_nil] at hrest
  have hall : weight t.expressions = made := by
    rw [zero_add] at hweight
    rw [hweight, bodyTranslator, weight_nil, zero_add]
  rw [List.nil_append, ← hrest, ← hall] at hkept
  exact hkept

/-- `if (true) { return }; return` -/
theorem instructions_conserved_if :
    ∃ t, translate (scriptOf [.LdTrue, .BrTrue 3, .Branch 4, .Ret, .Ret]) 6
        (bodyTranslator (scriptOf [.LdTrue, .BrTrue 3, .Branch 4, .Ret, .Ret])) = .ok t ∧
      Multiset.Rel Belongs ↑([Bytecode.LdTrue, .BrTrue 3, .Branch 4, .Ret, .Ret].filter
          Bytecode.isCounted)
        ↑((nodesOf t.expressions).filter fun e => !e.isFiller) := by
  apply instructions_conserved (scriptOf [.LdTrue, .BrTrue 3, .Branch 4, .Ret, .Ret])
  · intro opcode hmem
    simp only [scriptOf, List.mem_cons, List.not_mem_nil, or_false] at hmem
    rcases hmem with rfl | rfl | rfl | rfl | rfl <;> simp [Function.InBounds, scriptOf]
  · decide
  · have hok : (translate (scriptOf [.LdTrue, .BrTrue 3, .Branch 4, .Ret, .Ret]) 6
        (bodyTranslator (scriptOf [.LdTrue, .BrTrue 3, .Branch 4, .Ret, .Ret]))).isOk := rfl
    intro h
    rw [h] at hok
    cases hok

end MoveTools.Disassembler
