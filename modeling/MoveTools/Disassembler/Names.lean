import MoveTools.Disassembler.Body
import MoveTools.Disassembler.Conservation

namespace MoveTools.Disassembler
open Effects

/-- `write_name`, which parameters and variables share up to the stem. -/
def writeMarked (stem : Text) (used : Bool) (index : ℕ) : Text :=
  (if used then [] else "_".toList) ++ stem ++ if index ≠ 0 then Decimal.display index else []

def Param.writeName : Bool → ℕ → Text := writeMarked "arg".toList

def Var.writeName : Bool → ℕ → Text := writeMarked "var".toList

def Local.writeName (used : List Local) (l : Local) : Text :=
  match l with
  | .Param index => Param.writeName (decide (l ∈ used)) index
  | .Var index => Var.writeName (decide (l ∈ used)) index

def Body.writeName (b : Body) : Local → Text := Local.writeName b.used

/-- The index of the local that an instruction reads or borrows. -/
def Bytecode.reads : Bytecode → Option ℕ
  | .CopyLoc index | .MoveLoc index | .MutBorrowLoc index | .ImmBorrowLoc index => some index
  | _ => none

def Function.reads (f : Function) (opcode : Bytecode) : Option Local :=
  opcode.reads.bind fun index => f.locals[index]?

theorem writeMarked_head {stem : Text} {c : Char} {rest : Text} (hstem : stem = c :: rest)
    (hc : c ≠ '_') (used : Bool) (index : ℕ) :
    (writeMarked stem used index).head? = some '_' ↔ used = false := by
  subst hstem
  cases used with
  | true =>
    refine iff_of_false (fun h => ?_) Bool.true_eq_false.mp
    exact hc (Option.some.inj h)
  | false => exact iff_of_true rfl rfl

theorem index_injective {i j : ℕ}
    (h : (if i ≠ 0 then Decimal.display i else []) = if j ≠ 0 then Decimal.display j else []) :
    i = j := by
  by_cases hi : i = 0 <;> by_cases hj : j = 0
  · rw [hi, hj]
  · rw [if_neg (not_not.mpr hi), if_pos hj] at h
    exact absurd h.symm Nat.toDigits_ne_nil
  · rw [if_pos hi, if_neg (not_not.mpr hj)] at h
    exact absurd h Nat.toDigits_ne_nil
  · rw [if_pos hi, if_pos hj] at h
    exact Decimal.display_injective h

theorem writeMarked_injective {stem stem' : Text} (hstem : stem ∈ ["arg".toList, "var".toList])
    (hstem' : stem' ∈ ["arg".toList, "var".toList]) {used used' : Bool} {i j : ℕ}
    (h : writeMarked stem used i = writeMarked stem' used' j) : stem = stem' ∧ i = j := by
  have hused : used = used' := by
    have hhead := congrArg List.head? h
    simp only [List.mem_cons, List.not_mem_nil, or_false] at hstem hstem'
    rcases hstem with rfl | rfl <;> rcases hstem' with rfl | rfl <;>
      cases used <;> cases used' <;> first | rfl | cases hhead
  subst hused
  unfold writeMarked at h
  rw [List.append_assoc, List.append_assoc] at h
  replace h := List.append_cancel_left h
  have hlength : stem.length = stem'.length := by
    simp only [List.mem_cons, List.not_mem_nil, or_false] at hstem hstem'
    rcases hstem with rfl | rfl <;> rcases hstem' with rfl | rfl <;> rfl
  obtain ⟨hstems, hindex⟩ := List.append_inj h hlength
  exact ⟨hstems, index_injective hindex⟩

theorem writeName_injective (used : List Local) : Function.Injective (Local.writeName used) := by
  have hne : "arg".toList ≠ "var".toList := by decide
  intro l l' h
  cases l <;> cases l'
  case Param.Param i j => rw [(writeMarked_injective (by simp) (by simp) h).2]
  case Var.Var i j => rw [(writeMarked_injective (by simp) (by simp) h).2]
  case Param.Var i j => exact absurd (writeMarked_injective (by simp) (by simp) h).1 hne
  case Var.Param i j => exact absurd (writeMarked_injective (by simp) (by simp) h).1.symm hne

theorem writeName_underscore (used : List Local) (l : Local) :
    (l.writeName used).head? = some '_' ↔ l ∉ used := by
  cases l with
  | Param index => exact (writeMarked_head rfl (by decide) _ _).trans decide_eq_false_iff_not
  | Var index => exact (writeMarked_head rfl (by decide) _ _).trans decide_eq_false_iff_not

/-- On the way from `t` to `t'` the locals were marked that the instructions read which the
iterator gave meanwhile. -/
structure Marks (f : Function) (t t' : Translator) : Prop where
  inStep : InStep f t → InStep f t'
  endOffset : t'.endOffset = t.endOffset
  marked : ∃ consumed, t.rest = consumed ++ t'.rest ∧
    t'.used = t.used ++ consumed.filterMap f.reads

section
variable {f : Function} {opcode : Bytecode} {t t' t'' : Translator}

theorem Marks.of_samePlace (hs : SamePlace t t') (hused : t'.used = t.used) : Marks f t t' := by
  refine ⟨fun hin => ?_, hs.endOffset, [], hs.rest.symm, ?_⟩
  · rw [InStep, hs.rest, hs.next]
    exact hin
  · rw [hused, List.filterMap_nil, List.append_nil]

theorem Marks.refl (t : Translator) : Marks f t t := .of_samePlace (.refl t) rfl

theorem Marks.trans (h : Marks f t t') (h' : Marks f t' t'') : Marks f t t'' := by
  obtain ⟨consumed, hrest, hused⟩ := h.marked
  obtain ⟨consumed', hrest', hused'⟩ := h'.marked
  refine ⟨fun hin => h'.inStep (h.inStep hin), h'.endOffset.trans h.endOffset,
    consumed ++ consumed', ?_, ?_⟩
  · rw [hrest, hrest', List.append_assoc]
  · rw [hused', hused, List.filterMap_append, List.append_assoc]

/-- The step marks what its own instruction reads, and what is read in blocks. -/
def Marking (f : Function) (opcode : Bytecode) (t : Translator) (step : Step) : Prop :=
  Outcome step (fun r => Marks f { t with used := t.used ++ (f.reads opcode).toList } r.2)
    fun _ => True

theorem reads_none (h : opcode.reads = none) : f.reads opcode = none := by
  rw [Function.reads, h, Option.bind_none]

theorem Marking.of_marks {step : Step} (hreads : opcode.reads = none)
    (h : Outcome step (fun r => Marks f t r.2) fun _ => True) : Marking f opcode t step := by
  have hsame : { t with used := t.used ++ (f.reads opcode).toList } = t := by
    rw [reads_none hreads, Option.toList_none, List.append_nil]
  unfold Marking
  rw [hsame]
  exact h

theorem popExp_marks (t : Translator) : Marks f t t.popExp.2 := by
  apply Marks.of_samePlace (popExp_taken t).2
  unfold Translator.popExp
  split <;> rfl

theorem popExpVec_marks (t : Translator) (n : ℕ) : Marks f t (t.popExpVec n).2 := by
  apply Marks.of_samePlace (popExpVec_taken t n).2
  unfold Translator.popExpVec
  dsimp only
  split <;> rfl

theorem popExpTimes_marks (n : ℕ) (t : Translator) : Marks f t (t.popExpTimes n).2 := by
  induction n generalizing t with
  | zero => exact .refl t
  | succ n ih => exact (popExp_marks t).trans (ih t.popExp.2)

theorem letOperand_marks (t : Translator) : Marks f t (letOperand t).2 := by
  unfold letOperand
  split
  · split
    · exact .refl t
    · exact popExp_marks t
  · exact .refl t

theorem pop2Exp_marks (t : Translator) : Marks f t t.pop2Exp.2.2 := popExpTimes_marks 2 t

theorem buildIn_marks (kind : BuildIn) (index : ℕ) (typeParams : Option ℕ) (t : Translator) :
    Marks f t (FnCall.buildIn f kind index typeParams t).2 := by
  unfold FnCall.buildIn
  split
  · exact popExpVec_marks t _
  · exact .refl t

theorem buildInGeneric_marks (index : ℕ) (kind : BuildIn) (t : Translator) :
    Marks f t (FnCall.buildInGeneric f index kind opcode t).2 := by
  unfold FnCall.buildInGeneric
  split
  · exact buildIn_marks kind _ _ t
  · exact .refl t

theorem pack_marks (index : ℕ) (typeParams : Option ℕ) (t : Translator) :
    Marks f t (Pack.exp f index typeParams t).2 := by
  unfold Pack.exp
  cases f.unit.structDef index with
  | none => exact .refl t
  | some d =>
    simp only [packFields]
    cases d.fields with
    | none => exact .refl t
    | some names => exact popExpVec_marks t names.length

theorem fieldRef_marks (index : ℕ) (isMut : Bool) (t : Translator) :
    Marks f t (FieldRef.exp f index isMut t).2 := by
  unfold FieldRef.exp
  split
  · split
    · split
      · exact popExp_marks t
      · exact .refl t
    · exact .refl t
  · exact .refl t

theorem ldConst_marks (index : ℕ) (t : Translator) : Marks f t (Ld.ldConst f index t).2 := by
  unfold Ld.ldConst
  split
  · exact .refl t
  · dsimp only
    split <;> exact .refl t
  · exact .refl t

theorem localVar_marking {index : ℕ} {k : Local → Step}
    (h : ∀ l, f.locals[index]? = some l → Marking f opcode t (k l)) :
    Marking f opcode t (localVar f index >>= k) := by
  refine Outcome.bind (P := fun l => f.locals[index]? = some l) ?_ fun l hl => h l hl
  unfold localVar
  split
  · assumption
  · trivial

theorem read_marking {index : ℕ} {l : Local} (hreads : opcode.reads = some index)
    (hl : f.locals[index]? = some l) (b : Built) :
    Marking f opcode t (pure (b, t.markAsUsed l)) := by
  have hread : f.reads opcode = some l := by
    rw [Function.reads, hreads, Option.bind_some, hl]
  have hmark : { t with used := t.used ++ (f.reads opcode).toList } = t.markAsUsed l := by
    rw [hread]
    rfl
  refine Outcome.ok ?_
  rw [hmark]
  exact .refl _

def MarksBlocks (f : Function) (translateBlock : ℕ → Translator → BlockStep) : Prop :=
  ∀ size t, InStep f t → Outcome (translateBlock size t) (fun x => Marks f t x.2) fun _ => True

theorem blockWith_marks {translateFrom : Translator → Except Stop Translator}
    (h : ∀ t, InStep f t → Outcome (translateFrom t) (Marks f t) fun _ => True) :
    MarksBlocks f (blockWith translateFrom) := by
  intro size t hin
  refine Outcome.bind (h (t.inner size) hin) fun inner hrun => ?_
  exact ⟨fun _ => hrun.inStep hin, rfl, hrun.marked⟩

section
variable {translateBlock : ℕ → Translator → BlockStep} (hblocks : MarksBlocks f translateBlock)
  (hin : InStep f t)
include hblocks hin

theorem unpack_marks (index : ℕ) (typeParams : Option ℕ) :
    Outcome (Unpack.exp f translateBlock index typeParams t) (fun r => Marks f t r.2)
      fun _ => True := by
  unfold Unpack.exp
  split
  · refine Outcome.bind (hblocks _ t hin) fun x hx => ?_
    refine Outcome.bind (P := fun _ => True) (by cases usub _ _ <;> trivial) fun missing _ => ?_
    exact hx.trans (popExp_marks x.2)
  · exact .refl t

theorem brTrueAlone_marks (offset : ℕ) :
    Outcome (brTrueAlone translateBlock offset t) (fun r => Marks f t r.2) fun _ => True := by
  unfold brTrueAlone
  split
  · exact popExp_marks t
  · refine Outcome.bind (P := fun _ => True) (by cases usub _ _ <;> trivial) fun distance _ => ?_
    refine Outcome.bind (P := fun _ => True) (by cases usub _ _ <;> trivial) fun size _ => ?_
    refine Outcome.bind (hblocks size t hin) fun x hx => ?_
    refine Outcome.bind (hblocks _ x.2 (hx.inStep hin)) fun y hy => ?_
    exact (hx.trans hy).trans (popExp_marks y.2)

theorem falseBranchOf_marks (falseOffsetStart : ℕ) (falseOffsetEnd : Option ℕ) :
    Outcome (falseBranchOf translateBlock falseOffsetStart falseOffsetEnd t)
      (fun x => Marks f t x.2) fun _ => True := by
  unfold falseBranchOf
  split
  · split
    · exact .refl t
    · refine Outcome.bind (P := fun _ => True) (by cases usub _ _ <;> trivial) fun size _ => ?_
      split
      · exact .refl t
      · exact Outcome.bind (hblocks size t hin) fun x hx => hx
  · exact .refl t

theorem brTrueBranch_marks (trueOffset falseOffsetStart : ℕ) :
    Outcome (brTrueBranch f translateBlock trueOffset falseOffsetStart t)
      (fun r => Marks f t r.2) fun _ => True := by
  unfold brTrueBranch
  split
  · exact popExp_marks t
  · refine Outcome.bind (P := fun _ => True) (by cases usub _ _ <;> trivial) fun size _ => ?_
    refine Outcome.bind (hblocks size t hin) fun x hx => ?_
    have hfinish : ∀ (block : List ExpLoc) (falseOffsetEnd : Option ℕ), Outcome
        (falseBranchOf translateBlock falseOffsetStart falseOffsetEnd x.2 >>= fun y =>
          pure (popUnary (fun c => .If c (.mk block true) y.1) y.2))
        (fun r => Marks f t r.2) fun _ => True := by
      intro block falseOffsetEnd
      refine Outcome.bind (falseBranchOf_marks hblocks (hx.inStep hin) _ _) fun y hy => ?_
      exact (hx.trans hy).trans (popExp_marks y.2)
    dsimp only
    split
    case h_1 => exact hfinish _ none
    case h_2 =>
      split
      · split
        · exact hx.trans (popExp_marks x.2)
        · exact hfinish _ none
      · exact hfinish _ none
    case h_3 =>
      split
      · exact hfinish _ _
      · exact hfinish _ none
    case h_4 => exact hfinish _ none

end

theorem Marks.advance {code : List Bytecode} (hr : t.rest = opcode :: code)
    (hreads : opcode.reads = none) : Marks f t (t.advance code) := by
  refine ⟨fun hin => (hin.cons hr).2.2, rfl, [opcode], hr, ?_⟩
  rw [List.filterMap_cons_none (reads_none hreads), List.filterMap_nil, List.append_nil]
  rfl

section
variable {translateBlock : ℕ → Translator → BlockStep} (hblocks : MarksBlocks f translateBlock)
  (hin : InStep f t)
include hblocks hin

theorem brTrue_marks (offset : ℕ) (hpos : 0 < t.next) :
    Outcome (brTrue f translateBlock offset t) (fun r => Marks f t r.2) fun _ => True := by
  unfold brTrue
  split
  case h_1 falseOffset hbranch =>
    obtain ⟨code, hr, hnext⟩ := nextOpcode_branch hin hpos hbranch
    have hadvance : Marks f t (t.advance code) := .advance hr rfl
    rw [hnext]
    exact (brTrueBranch_marks hblocks (hadvance.inStep hin) offset falseOffset).mono
      fun _ hr' => hadvance.trans hr'
  case h_2 => exact brTrueAlone_marks hblocks hin offset

theorem nextExp_marking (hpos : 0 < t.next) (opcode : Bytecode) :
    Marking f opcode t (nextExp f translateBlock opcode t) := by
  cases opcode
  case CopyLoc index | MoveLoc index | MutBorrowLoc index | ImmBorrowLoc index =>
    exact localVar_marking fun l hl => read_marking rfl hl _
  case StLoc index =>
    exact localVar_marking fun l _ => .of_marks rfl (letOperand_marks t)
  case Pop | Nop | BrFalse | LdU8 | LdU64 | LdU128 | LdTrue | LdFalse =>
    exact .of_marks rfl (.refl t)
  case Branch offset =>
    refine .of_marks rfl ?_
    change Marks f t (br offset t).2
    unfold br
    split <;> exact .refl t
  case BrTrue offset => exact .of_marks rfl (brTrue_marks hblocks hin offset hpos)
  case FreezeRef | Not | Abort | CastU8 | CastU64 | CastU128 | ReadRef =>
    exact .of_marks rfl (popExp_marks t)
  case Add | Sub | Mul | Mod | Div | BitOr | BitAnd | Xor | Or | And | Eq | Neq
      | Lt | Gt | Le | Ge | Shl | Shr | WriteRef => exact .of_marks rfl (pop2Exp_marks t)
  case Ret => exact .of_marks rfl (popExpTimes_marks f.retLen t)
  case LdConst index => exact .of_marks rfl (ldConst_marks index t)
  case Call | CallGeneric => exact .of_marks rfl (popExpVec_marks t _)
  case Exists | MoveFrom | MoveTo | ImmBorrowGlobal | MutBorrowGlobal =>
    exact .of_marks rfl (buildIn_marks _ _ none t)
  case ExistsGeneric | MoveFromGeneric | MoveToGeneric | ImmBorrowGlobalGeneric
      | MutBorrowGlobalGeneric => exact .of_marks rfl (buildInGeneric_marks _ _ t)
  case Pack index => exact .of_marks rfl (pack_marks index none t)
  case Unpack index => exact .of_marks rfl (unpack_marks hblocks hin index none)
  case MutBorrowField index | ImmBorrowField index =>
    exact .of_marks rfl (fieldRef_marks index _ t)
  case PackGeneric index =>
    refine .of_marks rfl ?_
    simp only [nextExp]
    split
    · exact pack_marks _ _ t
    · exact .refl t
  case UnpackGeneric index =>
    refine .of_marks rfl ?_
    simp only [nextExp]
    split
    · exact unpack_marks hblocks hin _ _
    · exact .refl t
  case MutBorrowFieldGeneric index | ImmBorrowFieldGeneric index =>
    refine .of_marks rfl ?_
    simp only [nextExp]
    split
    · exact fieldRef_marks _ _ t
    · exact .refl t

end

theorem translate_marks (fuel : ℕ) (t : Translator) (hin : InStep f t) :
    Outcome (translate f fuel t) (Marks f t) fun _ => True := by
  induction fuel generalizing t with
  | zero => trivial
  | succ fuel ih =>
    by_cases he : t.opcodeOffset < t.endOffset
    · cases hr : t.rest with
      | nil =>
        have hend : Marks f t (t.advance []) := by
          refine ⟨fun _ => ?_, rfl, [], hr, (List.append_nil _).symm⟩
          have hdrop : f.code.drop t.next = [] := hin.symm.trans hr
          change [] = f.code.drop (t.next + 1)
          rw [← List.tail_drop, hdrop, List.tail_nil]
        rcases translate_nil f hr fuel with hstop | ⟨_, hstop⟩
        · rw [hstop]
          exact .refl t
        · rw [hstop]
          exact hend
      | cons opcode code =>
        have hin' := (hin.cons hr).2.2
        rw [translate_cons f hr he]
        refine Outcome.bind (nextExp_marking (blockWith_marks ih) hin' (Nat.succ_pos _) opcode)
          fun r hstep => ?_
        -- the instruction's own local is marked behind those of the blocks inside it
        have hpush : Marks f t (r.2.push t.next r.1) := by
          obtain ⟨consumed, hrest, hused⟩ := hstep.marked
          refine ⟨fun _ => hstep.inStep hin', hstep.endOffset, opcode :: consumed, ?_, ?_⟩
          · rw [hr, List.cons_append]
            exact congrArg (opcode :: ·) hrest
          · refine hused.trans ?_
            rw [List.append_assoc]
            cases hread : f.reads opcode with
            | none => rw [List.filterMap_cons_none hread]; rfl
            | some l => rw [List.filterMap_cons_some hread]; rfl
        exact (ih _ (hpush.inStep hin)).mono fun t' hrun => hpush.trans hrun
    · rw [translate_stop f he]
      exact .refl t

end

/-- Once through, in order, though blocks have translators of their own. -/
theorem translate_used (f : Function) {fuel : ℕ} {t : Translator}
    (h : translate f fuel (bodyTranslator f) = .ok t) : t.used = f.code.filterMap f.reads := by
  have hrun := translate_marks fuel (bodyTranslator f) (f := f) rfl
  rw [h] at hrun
  obtain ⟨consumed, hrest, hused⟩ := hrun.marked
  rw [body_rest f (hrun.inStep rfl) hrun.endOffset h, List.append_nil] at hrest
  rw [hused, ← hrest]
  rfl

theorem body_new_ok {u : BodyUnit} {code : CodeUnit} {retLen params : ℕ}
    {typeParams : List Generics.Generic} {body : Body}
    (h : Body.new u code retLen params typeParams = .ok body) :
    ∃ vars, body.locals = (List.range params).map .Param ++ (List.range vars).map .Var ∧
      body.used = code.code.filterMap
        (u.function code retLen params typeParams vars).reads := by
  unfold Body.new at h
  obtain ⟨varTypes, -, h⟩ := Collect.bind_eq_ok.mp h
  obtain ⟨_, -, h⟩ := Collect.bind_eq_ok.mp h
  obtain ⟨t, ht, h⟩ := Collect.bind_eq_ok.mp h
  obtain rfl := Except.ok.inj h
  exact ⟨varTypes.length, rfl, translate_used _ ht⟩

theorem body_locals_nodup (params vars : ℕ) :
    ((List.range params).map Local.Param ++ (List.range vars).map Local.Var).Nodup := by
  refine List.Nodup.append (List.nodup_range.map fun i j => Local.Param.inj)
    (List.nodup_range.map fun i j => Local.Var.inj) fun l hparam hvar => ?_
  obtain ⟨i, -, rfl⟩ := List.mem_map.mp hparam
  obtain ⟨j, -, hj⟩ := List.mem_map.mp hvar
  cases hj

/-- No two locals of a body are written alike, and an underscore is in front of just those that
none of its instructions reads, wherever in a branch it stands. -/
theorem local_names {u : BodyUnit} {code : CodeUnit} {retLen params : ℕ}
    {typeParams : List Generics.Generic} {body : Body}
    (h : Body.new u code retLen params typeParams = .ok body) :
    (body.locals.map body.writeName).Nodup ∧
      ∀ index l, body.locals[index]? = some l →
        ((body.writeName l).head? = some '_' ↔
          ∀ opcode ∈ code.code, opcode.reads ≠ some index) := by
  obtain ⟨vars, hlocals, hused⟩ := body_new_ok h
  have hnodup : body.locals.Nodup := hlocals ▸ body_locals_nodup params vars
  refine ⟨hnodup.map (writeName_injective body.used), fun index l hl => ?_⟩
  have hof : (u.function code retLen params typeParams vars).locals = body.locals := hlocals.symm
  rw [Body.writeName, writeName_underscore, hused, List.mem_filterMap]
  constructor
  · intro hnot opcode hopcode hreads
    refine hnot ⟨opcode, hopcode, ?_⟩
    rw [Function.reads, hreads, Option.bind_some, hof, hl]
  · rintro hnone ⟨opcode, hopcode, hread⟩
    obtain ⟨index', hreads, hl'⟩ := Option.bind_eq_some_iff.mp hread
    rw [hof] at hl'
    -- a local is found under one index only
    obtain ⟨hi, hget⟩ := List.getElem?_eq_some_iff.mp hl
    obtain ⟨hi', hget'⟩ := List.getElem?_eq_some_iff.mp hl'
    have hsame : index' = index := (hnodup.getElem_inj_iff).mp (hget'.trans hget.symm)
    exact hnone opcode hopcode (hsame ▸ hreads)

/-- `fun f(_arg: u64, arg1: u64) { let _var: u64; _var = arg1 }` -/
def namedUnit : BodyUnit := { bareUnit with signatures := [[.U64]] }

theorem local_names_read : ∃ body,
    Body.new namedUnit ⟨0, [.CopyLoc 1, .StLoc 2, .Ret]⟩ 0 2 [] = .ok body ∧
      body.locals.map body.writeName = ["_arg".toList, "arg1".toList, "_var".toList] ∧
      (body.locals.map body.writeName).Nodup := by
  obtain ⟨body, hbody⟩ : ∃ body,
      Body.new namedUnit ⟨0, [.CopyLoc 1, .StLoc 2, .Ret]⟩ 0 2 [] = .ok body := ⟨_, rfl⟩
  refine ⟨body, hbody, ?_, (local_names hbody).1⟩
  obtain rfl := Except.ok.inj hbody
  rfl

end MoveTools.Disassembler
