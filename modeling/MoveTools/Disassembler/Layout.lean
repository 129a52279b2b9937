import MoveTools.Disassembler.Placed

namespace MoveTools.Disassembler
open Effects

/-! Where the blocks of a body end, read off its jumps. -/

/-- The offset behind a piece of a block, and the target of the jump forward that it ends with. -/
structure Place where
  next : ℕ
  jump : Option ℕ
  deriving DecidableEq, Repr

section
variable (f : Function) (block : ℕ → Place → Option Place)

/-- Behind a conditional jump at `i` that no `Branch` follows, in a block up to `stop`. All the rest
of the code is its second block. -/
def aloneEnd (stop i trueOffset : ℕ) : Option ℕ :=
  if i = stop then some (i + 1)
  else if trueOffset ≤ i then none
  else
    (block (i + (trueOffset - i - 1)) ⟨i + 1, none⟩).bind fun p =>
      (block (p.next - 1 + (f.code.length - p.next)) ⟨p.next, none⟩).map Place.next

/-- Behind the false branch, where `p` is behind the true one. There is one if the true branch jumps
over it. -/
def falseEnd (falseOffset : ℕ) (p : Place) : Option ℕ :=
  match p.jump with
  | none => some p.next
  | some target =>
    if falseOffset < p.next - 1 then some p.next
    else if target < falseOffset then none
    else if target = falseOffset then some p.next
    else (block (p.next - 1 + (target - falseOffset)) ⟨p.next, none⟩).map Place.next

/-- Behind a conditional jump at `i` and the `Branch` that follows it. -/
def pairEnd (i trueOffset falseOffset : ℕ) : Option ℕ :=
  if trueOffset ≤ i then some (i + 2)
  else if falseOffset < trueOffset then none
  else (block (i + 1 + (falseOffset - trueOffset)) ⟨i + 2, none⟩).bind (falseEnd block falseOffset)

def stepEnd (stop i : ℕ) (opcode : Bytecode) : Option Place :=
  match opcode with
  | .Branch target => some ⟨i + 1, if i < target then some target else none⟩
  | .BrTrue trueOffset =>
    match opcodeAt f (i + 1) with
    | .Branch falseOffset => (pairEnd block i trueOffset falseOffset).map (⟨·, none⟩)
    | _ => (aloneEnd f block stop i trueOffset).map (⟨·, none⟩)
  | .Unpack _ | .UnpackGeneric _ =>
    (block (i + f.blockSize opcode) ⟨i + 1, none⟩).map fun p => ⟨p.next, none⟩
  | _ => some ⟨i + 1, none⟩

end

/-- The end of a block that is to go up to `stop`. It has none if an offset in it lies on the wrong
side of another one. -/
def blockEnd (f : Function) : ℕ → ℕ → Place → Option Place
  | 0, _, _ => none
  | fuel + 1, stop, p =>
    if p.next - 1 < stop then
      match f.code[p.next]? with
      | some opcode => (stepEnd f (blockEnd f fuel) stop p.next opcode).bind (blockEnd f fuel stop)
      | none => some ⟨p.next + 1, none⟩
    else some p

/-- Every block of the body has an end. -/
def Function.LaidOut (f : Function) : Prop :=
  (blockEnd f (f.code.length + 1) f.code.length ⟨0, none⟩).isSome

instance (f : Function) : Decidable f.LaidOut := inferInstanceAs (Decidable (_ = true))

/-! ### Places of the translator -/

def jumpOf (f : Function) (last : Option ExpLoc) (offset : ℕ) : Option ℕ :=
  match last, opcodeAt f offset with
  | some (.mk _ .Nop), .Branch target => if offset < target then some target else none
  | _, _ => none

/-- The translator has gone on to `n`, and no expression was left on its list. -/
structure Reaches (f : Function) (t t' : Translator) (n : ℕ) : Prop where
  inStep : InStep f t'
  next : t'.next = n
  le : t.next ≤ n
  endOffset : t'.endOffset = t.endOffset
  length : t'.expressions.length ≤ t.expressions.length

/-- An expression that is no jump was built on the way to `n`. -/
def BuiltUpTo (f : Function) (t : Translator) (r : Built × Translator) (n : ℕ) : Prop :=
  Reaches f t r.2 n ∧ r.1.exp.isNop = false

structure StepAt (f : Function) (t : Translator) (r : Built × Translator) (p : Place) : Prop where
  reaches : Reaches f t r.2 p.next
  jump : p.jump = jumpOf f (some (r.2.loc r.1.exp)) r.2.opcodeOffset

/-- A block has no more expressions than it was to have instructions. -/
structure BlockAt (f : Function) (size : ℕ) (t : Translator) (x : List ExpLoc × Translator)
    (p : Place) : Prop where
  reaches : Reaches f t x.2 p.next
  jump : p.jump = jumpOf f x.1.getLast? x.2.opcodeOffset
  length : x.1.length ≤ size

/-- Blocks are translated up to where the layout ends them. -/
def BlocksAgree (f : Function) (translateBlock : ℕ → Translator → BlockStep)
    (block : ℕ → Place → Option Place) : Prop :=
  ∀ size t, InStep f t → 0 < t.next →
    Agree (BlockAt f size t) (translateBlock size t) (block (t.opcodeOffset + size) ⟨t.next, none⟩)

section
variable {f : Function} {t t' t'' : Translator} {opcode : Bytecode} {n m offset : ℕ}
  {last : Option ExpLoc}

theorem jumpOf_of_notNop (h : ∀ i, last ≠ some (.mk i .Nop)) : jumpOf f last offset = none := by
  unfold jumpOf
  split
  case h_1 i _ _ => exact absurd rfl (h i)
  case h_2 => rfl

theorem jumpOf_of_notBranch (h : ∀ target, opcodeAt f offset ≠ .Branch target) :
    jumpOf f last offset = none := by
  unfold jumpOf
  split
  case h_1 hop => exact absurd hop (h _)
  case h_2 => rfl

theorem Reaches.trans (h : Reaches f t t' n) (h' : Reaches f t' t'' m) : Reaches f t t'' m :=
  ⟨h'.inStep, h'.next, h.le.trans (h.next ▸ h'.le), h'.endOffset.trans h.endOffset,
    h'.length.trans h.length⟩

theorem Reaches.opcodeOffset (h : Reaches f t t' n) : t'.opcodeOffset = n - 1 := by
  rw [t'.opcodeOffset_eq, h.next]

theorem Reaches.rest_length (h : Reaches f t t' n) : t'.rest.length = f.code.length - n := by
  rw [h.inStep, h.next, List.length_drop]

theorem Reaches.pos (h : Reaches f t t' n) (hpos : 0 < t.next) : 0 < t'.next := by
  have := h.le
  rw [h.next]
  omega

theorem reaches_of_samePlace (hin : InStep f t) (hs : SamePlace t t')
    (hlen : t'.expressions.length ≤ t.expressions.length) : Reaches f t t' t.next where
  inStep := by
    rw [InStep, hs.rest, hs.next]
    exact hin
  next := hs.next
  le := Nat.le_refl _
  endOffset := hs.endOffset
  length := hlen

theorem reaches_refl (hin : InStep f t) : Reaches f t t t.next :=
  reaches_of_samePlace hin (.refl t) (Nat.le_refl _)

theorem reaches_advance {code : List Bytecode} (hin : InStep f t) (hr : t.rest = opcode :: code) :
    Reaches f t (t.advance code) (t.next + 1) :=
  ⟨(hin.cons hr).2.2, rfl, Nat.le_succ _, rfl, Nat.le_refl _⟩

theorem popUnary_reaches (make : ExpLoc → Exp) (h : Reaches f t t' n) :
    Reaches f t (popUnary make t').2 n := by
  have hpop := popExp_taken t'
  have hstep := reaches_of_samePlace h.inStep hpop.2 hpop.1.length_le
  rw [h.next] at hstep
  exact h.trans hstep

theorem BuiltUpTo.stepAt {r : Built × Translator} (h : BuiltUpTo f t r n) :
    StepAt f t r ⟨n, none⟩ := by
  refine ⟨h.1, (jumpOf_of_notNop fun i heq => ?_).symm⟩
  have hexp := h.2
  rw [Translator.loc, Option.some.injEq] at heq
  rw [(ExpLoc.mk.inj heq).2] at hexp
  cases hexp

/-! ### Instructions without blocks -/

theorem packExp_reaches {index : ℕ} (hin : InStep f t) (hd : (f.unit.structDef index).isSome)
    (typeParams : Option ℕ) : Reaches f t (Pack.exp f index typeParams t).2 t.next := by
  obtain ⟨d, hd⟩ := Option.isSome_iff_exists.mp hd
  simp only [Pack.exp, hd, packFields]
  split
  · exact reaches_refl hin
  · exact reaches_of_samePlace hin (popExpVec_taken t _).2 (popExpVec_taken t _).1.length_le

theorem letOperand_reaches (hin : InStep f t) : Reaches f t (letOperand t).2 t.next := by
  refine reaches_of_samePlace hin (letOperand_place t).1 ?_
  unfold letOperand
  split
  · split
    · exact Nat.le_refl _
    · exact (popExp_taken t).1.length_le
  · exact Nat.le_refl _

theorem exists_arity (hop : f.InBounds opcode) (hbranch : opcode.offset = none)
    (hunpack : opcode.isUnpack = false) (hpack : ∀ i, opcode ≠ .Pack i ∧ opcode ≠ .PackGeneric i) :
    ∃ a, arity f.unit f.locals.length f.retLen opcode = some a := by
  cases opcode
  case BrTrue | BrFalse | Branch => cases hbranch
  case Unpack | UnpackGeneric => cases hunpack
  case Pack i => exact absurd rfl (hpack i).1
  case PackGeneric i => exact absurd rfl (hpack i).2
  case CopyLoc | MoveLoc | StLoc | MutBorrowLoc | ImmBorrowLoc => exact ⟨_, if_pos hop⟩
  case Exists | MoveFrom | MoveTo | ImmBorrowGlobal | MutBorrowGlobal =>
    obtain ⟨d, hd⟩ := Option.isSome_iff_exists.mp hop
    simp only [arity, ifStruct, hd]
    exact ⟨_, rfl⟩
  case ExistsGeneric | MoveFromGeneric | MoveToGeneric | ImmBorrowGlobalGeneric
      | MutBorrowGlobalGeneric =>
    obtain ⟨handle, hhandle, hd⟩ := isSome_bind hop
    obtain ⟨d, hd⟩ := Option.isSome_iff_exists.mp hd
    simp only [arity, hhandle, Option.bind_some, ifStruct, hd]
    exact ⟨_, rfl⟩
  case MutBorrowField | ImmBorrowField =>
    obtain ⟨_, hf⟩ := Option.isSome_iff_exists.mp hop
    simp only [arity, hf]
    exact ⟨_, rfl⟩
  case MutBorrowFieldGeneric | ImmBorrowFieldGeneric =>
    obtain ⟨_, hf⟩ := Option.isSome_iff_exists.mp hop
    simp only [arity, hf]
    exact ⟨_, rfl⟩
  all_goals exact ⟨_, rfl⟩

theorem nextExp_reaches (hin : InStep f t) (hop : f.InBounds opcode)
    (hbranch : opcode.offset = none) (hunpack : opcode.isUnpack = false)
    (translateBlock : ℕ → Translator → BlockStep) :
    ∃ r, nextExp f translateBlock opcode t = .ok r ∧ Reaches f t r.2 t.next := by
  by_cases hpack : ∃ i, opcode = .Pack i ∨ opcode = .PackGeneric i
  · obtain ⟨i, rfl | rfl⟩ := hpack
    · exact ⟨_, rfl, packExp_reaches hin hop none⟩
    · obtain ⟨handle, hhandle, hd⟩ := isSome_bind hop
      obtain ⟨inst, hinst, rfl⟩ := Option.map_eq_some_iff.mp hhandle
      have hstep : nextExp f translateBlock (.PackGeneric i) t =
          .ok (Pack.exp f inst.handle (some inst.typeParameters) t) := by
        simp only [nextExp, hinst]
      exact ⟨_, hstep, packExp_reaches hin hd (some inst.typeParameters)⟩
  have hother : ∀ i, opcode ≠ .Pack i ∧ opcode ≠ .PackGeneric i := fun i =>
    ⟨fun h => hpack ⟨i, .inl h⟩, fun h => hpack ⟨i, .inr h⟩⟩
  obtain ⟨a, ha⟩ := exists_arity hop hbranch hunpack hother
  by_cases hpop : opcode = .Pop
  · subst hpop
    exact ⟨_, rfl, reaches_refl hin⟩
  by_cases hstore : ∃ i, opcode = .StLoc i
  · obtain ⟨i, rfl⟩ := hstore
    obtain ⟨l, hl⟩ := nextExp_stLoc f ha translateBlock
    exact ⟨_, hl t, letOperand_reaches hin⟩
  · have hnone : unpackCount f.unit opcode = none := by
      cases opcode <;> first | rfl | cases hunpack
    obtain ⟨b, t', hstep, hb⟩ :=
      nextExp_builds f ha hnone hpop (fun i h => hstore ⟨i, h⟩) translateBlock t
    exact ⟨(b, t'), hstep, reaches_of_samePlace hin hb.place hb.taken.length_le⟩

theorem stepEnd_plain (hbranch : opcode.offset = none) (hunpack : opcode.isUnpack = false)
    (block : ℕ → Place → Option Place) (stop i : ℕ) :
    stepEnd f block stop i opcode = some ⟨i + 1, none⟩ := by
  cases opcode
  case BrTrue | BrFalse | Branch => cases hbranch
  case Unpack | UnpackGeneric => cases hunpack
  all_goals rfl

theorem stepEnd_unpack (hunpack : opcode.isUnpack) (block : ℕ → Place → Option Place)
    (stop i : ℕ) : stepEnd f block stop i opcode =
      (block (i + f.blockSize opcode) ⟨i + 1, none⟩).map fun p => ⟨p.next, none⟩ := by
  cases opcode
  case Unpack | UnpackGeneric => rfl
  all_goals cases hunpack

theorem stepEnd_pair {i trueOffset falseOffset : ℕ} {block : ℕ → Place → Option Place} {stop : ℕ}
    (h : opcodeAt f (i + 1) = .Branch falseOffset) :
    stepEnd f block stop i (.BrTrue trueOffset) =
      (pairEnd block i trueOffset falseOffset).map (⟨·, none⟩) := by
  unfold stepEnd
  simp only [h]

theorem stepEnd_alone {i trueOffset : ℕ} {block : ℕ → Place → Option Place} {stop : ℕ}
    (h : ∀ falseOffset, opcodeAt f (i + 1) ≠ .Branch falseOffset) :
    stepEnd f block stop i (.BrTrue trueOffset) =
      (aloneEnd f block stop i trueOffset).map (⟨·, none⟩) := by
  unfold stepEnd
  dsimp only
  split
  case h_1 falseOffset hbranch => exact absurd hbranch (h falseOffset)
  case h_2 => rfl

theorem brTrue_pair {translateBlock : ℕ → Translator → BlockStep} {trueOffset falseOffset : ℕ}
    (h : opcodeAt f (t.opcodeOffset + 1) = .Branch falseOffset) :
    brTrue f translateBlock trueOffset t =
      brTrueBranch f translateBlock trueOffset falseOffset t.nextOpcode.2 := by
  unfold brTrue
  simp only [h]

theorem brTrue_alone {translateBlock : ℕ → Translator → BlockStep} {trueOffset : ℕ}
    (h : ∀ falseOffset, opcodeAt f (t.opcodeOffset + 1) ≠ .Branch falseOffset) :
    brTrue f translateBlock trueOffset t = brTrueAlone translateBlock trueOffset t := by
  unfold brTrue
  split
  case h_1 falseOffset hbranch => exact absurd hbranch (h falseOffset)
  case h_2 => rfl

theorem br_stepAt {target : ℕ} (hin : InStep f t) (hop : opcodeAt f t.opcodeOffset = .Branch target) :
    StepAt f t (br target t)
      ⟨t.next, if t.opcodeOffset < target then some target else none⟩ := by
  unfold br
  split
  case isTrue h =>
    refine ⟨reaches_refl hin, ?_⟩
    unfold jumpOf
    dsimp only [Translator.loc]
    rw [hop]
    exact (if_pos h).symm
  case isFalse h => exact BuiltUpTo.stepAt ⟨reaches_refl hin, rfl⟩

/-! ### Conditionals -/

section
variable {translateBlock : ℕ → Translator → BlockStep} {block : ℕ → Place → Option Place}
  (hblocks : BlocksAgree f translateBlock block)
include hblocks

theorem brTrueAlone_agrees (hin : InStep f t) (hpos : 0 < t.next) (trueOffset : ℕ) :
    Agree (BuiltUpTo f t) (brTrueAlone translateBlock trueOffset t)
      (aloneEnd f block t.endOffset t.opcodeOffset trueOffset) := by
  have hnext : t.opcodeOffset + 1 = t.next := by
    rw [t.opcodeOffset_eq]
    omega
  unfold brTrueAlone aloneEnd
  rw [hnext]
  split
  · exact .ok ⟨popUnary_reaches _ (reaches_refl hin), rfl⟩
  by_cases htrue : trueOffset ≤ t.opcodeOffset
  · rw [if_pos htrue]
    rcases Nat.lt_or_eq_of_le htrue with hlt | heq
    · rw [usub_panic hlt]
      exact .error _ _
    · rw [usub_ok (Nat.le_of_eq heq.symm), heq, Nat.sub_self]
      exact .error _ _
  · rw [if_neg htrue, usub_ok (by omega)]
    show Agree _ (usub _ 1 >>= _) _
    rw [usub_ok (by omega)]
    refine (hblocks _ t hin hpos).bind fun x p hx => ?_
    have hrest := hblocks x.2.rest.length x.2 hx.reaches.inStep (hx.reaches.pos hpos)
    have hstop : x.2.opcodeOffset + x.2.rest.length = p.next - 1 + (f.code.length - p.next) := by
      rw [hx.reaches.opcodeOffset, hx.reaches.rest_length]
    rw [hstop, hx.reaches.next] at hrest
    show Agree _ (translateBlock x.2.rest.length x.2 >>= fun y =>
      .ok (popUnary (fun c => .If c (.mk y.1 true) _) y.2)) _
    refine hrest.map fun y q hy => ?_
    exact ⟨popUnary_reaches _ (hx.reaches.trans hy.reaches), rfl⟩

theorem falseBranchOf_agrees {falseOffsetEnd : Option ℕ} {p : Place} (hin : InStep f t)
    (hpos : 0 < t.next) (hnext : t.next = p.next) (hjump : p.jump = falseOffsetEnd)
    (falseOffset : ℕ) :
    Agree (fun r n => Reaches f t r.2 n) (falseBranchOf translateBlock falseOffset falseOffsetEnd t)
      (falseEnd block falseOffset p) := by
  have hrefl : Reaches f t t p.next := hnext ▸ reaches_refl hin
  unfold falseBranchOf falseEnd
  rw [hjump, ← hrefl.opcodeOffset]
  cases falseOffsetEnd with
  | none => exact .ok hrefl
  | some target =>
    dsimp only
    by_cases hpassed : falseOffset < t.opcodeOffset
    · rw [if_pos hpassed, if_pos hpassed]
      exact .ok hrefl
    rw [if_neg hpassed, if_neg hpassed]
    by_cases hback : target < falseOffset
    · rw [if_pos hback, usub_panic hback]
      exact .error _ _
    rw [if_neg hback, usub_ok (Nat.le_of_not_lt hback)]
    show Agree _ (if target - falseOffset = 0 then _ else _) _
    by_cases hempty : target = falseOffset
    · rw [if_pos hempty, if_pos (by omega)]
      exact .ok hrefl
    · rw [if_neg hempty, if_neg (by omega), ← hnext]
      exact (hblocks _ t hin hpos).map fun x q hx => hx.reaches

theorem if_agrees {block' : List ExpLoc} {falseOffsetEnd : Option ℕ} {p : Place}
    (hx : Reaches f t t' p.next) (hpos : 0 < t.next) (hjump : p.jump = falseOffsetEnd)
    (falseOffset : ℕ) :
    Agree (BuiltUpTo f t) (falseBranchOf translateBlock falseOffset falseOffsetEnd t' >>= fun x =>
        pure (popUnary (fun c => .If c (.mk block' true) x.1) x.2))
      (falseEnd block falseOffset p) := by
  have hfalse := falseBranchOf_agrees hblocks hx.inStep (hx.pos hpos) hx.next hjump falseOffset
  exact hfalse.map_left fun r n hr => ⟨popUnary_reaches _ (hx.trans hr), rfl⟩

/-- Here the `Branch` behind the jump at `i` has been passed. -/
theorem brTrueBranch_agrees {i : ℕ} (hin : InStep f t) (hnext : t.next = i + 2)
    (trueOffset falseOffset : ℕ) :
    Agree (BuiltUpTo f t) (brTrueBranch f translateBlock trueOffset falseOffset t)
      (pairEnd block i trueOffset falseOffset) := by
  have hoffset : t.opcodeOffset = i + 1 := by
    rw [t.opcodeOffset_eq, hnext]
    omega
  have hpos : 0 < t.next := by omega
  unfold brTrueBranch pairEnd
  rw [← hnext, ← hoffset]
  by_cases hback : trueOffset < t.opcodeOffset
  · rw [if_pos hback, if_pos (by omega)]
    exact .ok ⟨popUnary_reaches _ (reaches_refl hin), rfl⟩
  rw [if_neg hback, if_neg (by omega)]
  by_cases hcross : falseOffset < trueOffset
  · rw [if_pos hcross, usub_panic hcross]
    exact .error _ _
  rw [if_neg hcross, usub_ok (Nat.le_of_not_lt hcross)]
  refine (hblocks _ t hin hpos).bind fun x p hx => ?_
  -- only a block that ends with a jump forward is followed by a false branch
  have hnojump : ∀ {e : Exp} {index : ℕ}, x.1.getLast? = some (.mk index e) → e.isNop = false →
      p.jump = none := by
    intro e index hlast he
    rw [hx.jump, hlast]
    refine jumpOf_of_notNop fun i heq => ?_
    rw [Option.some.injEq] at heq
    rw [(ExpLoc.mk.inj heq).2] at he
    cases he
  have hif : ∀ (block' : List ExpLoc) (falseOffsetEnd : Option ℕ), p.jump = falseOffsetEnd →
      Agree (BuiltUpTo f t) (falseBranchOf translateBlock falseOffset falseOffsetEnd x.2 >>=
          fun y => pure (popUnary (fun c => .If c (.mk block' true) y.1) y.2))
        (falseEnd block falseOffset p) :=
    fun block' falseOffsetEnd hjump => if_agrees hblocks hx.reaches hpos hjump falseOffset
  dsimp only
  split
  case h_1 hlast => exact hif _ none (hnojump hlast rfl)
  case h_2 hlast =>
    have hjump := hnojump hlast rfl
    split
    · split
      · unfold falseEnd
        rw [hjump]
        exact .ok ⟨popUnary_reaches _ hx.reaches, rfl⟩
      · exact hif _ none hjump
    · exact hif _ none hjump
  case h_3 hlast =>
    split
    case h_1 hop =>
      refine hif _ _ ?_
      rw [hx.jump, hlast]
      unfold jumpOf
      rw [hop]
    case h_2 hop =>
      refine hif _ none ?_
      rw [hx.jump]
      exact jumpOf_of_notBranch hop
  case h_4 hret hcontinue hnop =>
    refine hif _ none ?_
    rw [hx.jump]
    exact jumpOf_of_notNop hnop

theorem brTrue_agrees (hin : InStep f t) (hpos : 0 < t.next) (trueOffset : ℕ) :
    Agree (StepAt f t) (brTrue f translateBlock trueOffset t)
      (stepEnd f block t.endOffset t.opcodeOffset (.BrTrue trueOffset)) := by
  by_cases hbranch : ∃ falseOffset, opcodeAt f (t.opcodeOffset + 1) = .Branch falseOffset
  · obtain ⟨falseOffset, hbranch⟩ := hbranch
    obtain ⟨code, hr, hnext⟩ := nextOpcode_branch hin hpos hbranch
    have hin' : InStep f (t.advance code) := (hin.cons hr).2.2
    have hpassed : (t.advance code).next = t.opcodeOffset + 2 := by
      rw [Translator.next_advance, t.opcodeOffset_eq]
      omega
    rw [brTrue_pair hbranch, stepEnd_pair hbranch, hnext]
    have hpair := brTrueBranch_agrees hblocks hin' hpassed trueOffset falseOffset
    refine hpair.map_right fun r n hr' => BuiltUpTo.stepAt ⟨?_, hr'.2⟩
    exact (reaches_advance hin hr).trans hr'.1
  · have hno : ∀ falseOffset, opcodeAt f (t.opcodeOffset + 1) ≠ .Branch falseOffset :=
      fun falseOffset h => hbranch ⟨falseOffset, h⟩
    rw [brTrue_alone hno, stepEnd_alone hno]
    exact (brTrueAlone_agrees hblocks hin hpos trueOffset).map_right fun r n hr => hr.stepAt

theorem unpack_agrees {index : ℕ} {d : StructDef} (hin : InStep f t) (hpos : 0 < t.next)
    (hd : f.unit.structDef index = some d) (typeParams : Option ℕ) :
    Agree (BuiltUpTo f t) (Unpack.exp f translateBlock index typeParams t)
      ((block (t.opcodeOffset + f.fields index) ⟨t.next, none⟩).map Place.next) := by
  have hfields : (d.fields.getD []).length = f.fields index := by
    rw [Function.fields, hd, Option.bind_some]
  simp only [Unpack.exp, hd, hfields]
  rw [Option.map_eq_bind]
  refine (hblocks _ t hin hpos).bind fun x p hx => ?_
  show Agree _ (usub (f.fields index) x.1.length >>= _) _
  rw [usub_ok hx.length]
  exact .ok ⟨popUnary_reaches ExpLoc.val hx.reaches, rfl⟩

/-! ### Every instruction -/

theorem nextExp_agrees (hin : InStep f t) (hpos : 0 < t.next) (hop : f.InBounds opcode)
    (hat : opcodeAt f t.opcodeOffset = opcode) :
    Agree (StepAt f t) (nextExp f translateBlock opcode t)
      (stepEnd f block t.endOffset t.opcodeOffset opcode) := by
  have hnext : t.opcodeOffset + 1 = t.next := by
    rw [t.opcodeOffset_eq]
    omega
  by_cases hunpack : opcode.isUnpack
  · obtain ⟨index, typeParams, d, hd, hsize, hstep⟩ := nextExp_isUnpack hop hunpack
    rw [stepEnd_unpack hunpack block, hsize, hnext,
      show nextExp f translateBlock opcode t = _ from hstep f.code translateBlock t]
    have hblock := unpack_agrees hblocks hin hpos hd typeParams
    have hplace := hblock.map_right (g := fun n => (⟨n, none⟩ : Place)) fun r n hr => hr.stepAt
    rwa [Option.map_map] at hplace
  rw [Bool.not_eq_true] at hunpack
  cases hbranch : opcode.offset with
  | none =>
    obtain ⟨r, hstep, hr⟩ := nextExp_reaches hin hop hbranch hunpack translateBlock
    rw [hstep, stepEnd_plain hbranch hunpack block, hnext]
    refine .ok ⟨hr, (jumpOf_of_notBranch fun target h => ?_).symm⟩
    rw [hr.opcodeOffset, ← t.opcodeOffset_eq, hat] at h
    rw [h] at hbranch
    cases hbranch
  | some target =>
    cases opcode
    case BrTrue offset => exact brTrue_agrees hblocks hin hpos offset
    case BrFalse =>
      show Agree (StepAt f t) _ (some ⟨t.opcodeOffset + 1, none⟩)
      rw [hnext]
      exact .ok (BuiltUpTo.stepAt ⟨reaches_refl hin, rfl⟩)
    case Branch =>
      rw [stepEnd, hnext]
      exact .ok (br_stepAt hin hat)
    all_goals cases hbranch

end

/-! ### A whole run -/

def Translator.place (f : Function) (t : Translator) : Place :=
  ⟨t.next, jumpOf f t.expressions.getLast? t.opcodeOffset⟩

/-- Each instruction that is passed leaves one expression at most. -/
structure RunAt (f : Function) (t t' : Translator) (p : Place) : Prop where
  inStep : InStep f t'
  le : t.next ≤ t'.next
  place : t'.place f = p
  length : 0 < t.next →
    t'.expressions.length ≤ t.expressions.length + (t.endOffset - t.opcodeOffset)

theorem blockWith_agrees {fuel : ℕ} (h : ∀ t, InStep f t →
    Agree (RunAt f t) (translate f fuel t) (blockEnd f fuel t.endOffset (t.place f))) :
    BlocksAgree f (blockWith (translate f fuel)) (blockEnd f fuel) := by
  intro size t hin hpos
  have hplace : (t.inner size).place f = ⟨t.next, none⟩ := by
    rw [Translator.place, Translator.next_inner,
      show (t.inner size).expressions.getLast? = none from rfl,
      jumpOf_of_notNop fun i h => by cases h]
  have hinner := h (t.inner size) hin
  rw [hplace] at hinner
  refine hinner.map_left (k := fun inner => (inner.expressions, Translator.outer t inner))
    fun inner p hrun => ?_
  have hlength := hrun.length hpos
  have hp := hrun.place
  subst hp
  refine ⟨⟨hrun.inStep, rfl, hrun.le, rfl, Nat.le_refl _⟩, rfl, ?_⟩
  show inner.expressions.length ≤ size
  have hempty : (t.inner size).expressions.length = 0 := rfl
  have hend : (t.inner size).endOffset = (t.inner size).opcodeOffset + size := rfl
  omega

theorem translate_agrees (hload : f.Loadable) (fuel : ℕ) (t : Translator) (hin : InStep f t) :
    Agree (RunAt f t) (translate f fuel t) (blockEnd f fuel t.endOffset (t.place f)) := by
  induction fuel generalizing t with
  | zero => exact .error _ _
  | succ fuel ih =>
    have hoffset : (t.place f).next - 1 = t.opcodeOffset := t.opcodeOffset_eq.symm
    by_cases he : t.opcodeOffset < t.endOffset
    · rw [blockEnd, hoffset, if_pos he]
      cases hr : t.rest with
      | nil =>
        -- the iterator is at the end of the code, and still moves
        have hdrop : f.code.drop t.next = [] := hin.symm.trans hr
        have hget : f.code[t.next]? = none := by
          rw [← List.head?_drop, hdrop, List.head?_nil]
        have hrun : translate f (fuel + 1) t = .ok (t.advance []) := by
          simp only [translate, gt_iff_lt, he, if_true, nextOpcode_nil hr]
        rw [hrun, show f.code[(t.place f).next]? = none from hget]
        refine .ok ⟨?_, Nat.le_succ _, ?_, fun _ => Nat.le_add_right _ _⟩
        · change [] = f.code.drop (t.next + 1)
          rw [← List.tail_drop, hdrop, List.tail_nil]
        · have hnop : opcodeAt f t.next = .Nop := by
            rw [opcodeAt, hget]
            rfl
          have hjump : jumpOf f (t.advance []).expressions.getLast? t.next = none :=
            jumpOf_of_notBranch fun target h => by
              rw [hnop] at h
              cases h
          rw [Translator.place, Translator.opcodeOffset_advance, hjump]
          rfl
      | cons opcode code =>
        obtain ⟨hget, hop, hin'⟩ := hin.cons hr
        have hstep := nextExp_agrees (blockWith_agrees ih) hin' (Nat.succ_pos _)
          (hload opcode (List.mem_of_getElem? hget)) hop
        rw [translate_cons f hr he, show f.code[(t.place f).next]? = some opcode from hget]
        refine hstep.bind fun r p hr' => ?_
        -- behind the instruction the translator stands where the layout has got to
        have hplace : (r.2.push t.next r.1).place f = p := by
          obtain ⟨next, jump⟩ := p
          have hlast : (r.2.push t.next r.1).expressions.getLast? = some (r.2.loc r.1.exp) :=
            List.getLast?_concat
          have hjump := hr'.jump
          have hnext := hr'.reaches.next
          rw [Translator.place, Translator.next_push, hlast]
          exact congrArg₂ Place.mk hnext hjump.symm
        have hend : (r.2.push t.next r.1).endOffset = t.endOffset := hr'.reaches.endOffset
        have hrest := ih (r.2.push t.next r.1) hr'.reaches.inStep
        rw [hplace, hend] at hrest
        refine hrest.mono fun t' q hrun => ?_
        have hle : t.next + 1 ≤ r.2.next := hr'.reaches.next ▸ hr'.reaches.le
        refine ⟨hrun.inStep, ?_, hrun.place, fun hpos => ?_⟩
        · have := hrun.le
          rw [Translator.next_push] at this
          omega
        · have hmore := hrun.length (by rw [Translator.next_push]; omega)
          have hone : (r.2.push t.next r.1).expressions.length ≤ t.expressions.length + 1 := by
            show (r.2.expressions ++ [_]).length ≤ _
            rw [List.length_append, List.length_singleton]
            exact Nat.succ_le_succ hr'.reaches.length
          rw [hend, Translator.opcodeOffset_eq, Translator.next_push] at hmore
          rw [t.opcodeOffset_eq] at he ⊢
          omega
    · rw [translate_stop f he, blockEnd, hoffset, if_neg he]
      exact .ok ⟨hin, Nat.le_refl _, rfl, fun _ => Nat.le_add_right _ _⟩

/-! ### True branches behind their jump -/

/-- Behind each conditional jump stands the jump over its true branch, and behind that the true
branch. -/
def Function.Adjacent (f : Function) : Prop :=
  ∀ i trueOffset, f.code[i]? = some (.BrTrue trueOffset) →
    ∃ falseOffset, f.code[i + 1]? = some (.Branch falseOffset) ∧
      (trueOffset ≤ i ∨ trueOffset = i + 2 ∧ i + 2 ≤ falseOffset)

/-- A jump at the end leads behind it, and stands where the block was to end. -/
structure Ends (stop : ℕ) (p q : Place) : Prop where
  le : p.next ≤ q.next
  forward : ∀ target, q.jump = some target → q.next - 1 < target
  stopped : q.jump ≠ none → stop ≤ q.next - 1

/-- What is behind `n` has its ends. -/
def EndsFrom (block : ℕ → Place → Option Place) (n : ℕ) : Prop :=
  ∀ stop next, n ≤ next → ∃ q, block stop ⟨next, none⟩ = some q ∧ Ends stop ⟨next, none⟩ q

section
variable {block : ℕ → Place → Option Place} {i : ℕ} (h : EndsFrom block (i + 1))
include h

theorem falseEnd_some {p : Place} {falseOffset : ℕ} (hp : Ends (falseOffset - 1) ⟨i + 2, none⟩ p) :
    ∃ n, falseEnd block falseOffset p = some n ∧ i + 2 ≤ n := by
  have hle : i + 2 ≤ p.next := hp.le
  unfold falseEnd
  cases hjump : p.jump with
  | none => exact ⟨p.next, rfl, hle⟩
  | some target =>
    have hforward := hp.forward target hjump
    have hstopped := hp.stopped (by simp [hjump])
    dsimp only
    by_cases hpassed : falseOffset < p.next - 1
    · exact ⟨p.next, if_pos hpassed, hle⟩
    rw [if_neg hpassed, if_neg (by omega)]
    by_cases hempty : target = falseOffset
    · exact ⟨p.next, if_pos hempty, hle⟩
    · rw [if_neg hempty]
      obtain ⟨q, hq, hends⟩ := h (p.next - 1 + (target - falseOffset)) p.next (by omega)
      rw [hq]
      exact ⟨q.next, rfl, hle.trans hends.le⟩

theorem pairEnd_some {trueOffset falseOffset : ℕ}
    (hpair : trueOffset ≤ i ∨ trueOffset = i + 2 ∧ i + 2 ≤ falseOffset) :
    ∃ n, pairEnd block i trueOffset falseOffset = some n ∧ i + 2 ≤ n := by
  unfold pairEnd
  rcases hpair with hback | ⟨rfl, hle⟩
  · exact ⟨i + 2, if_pos hback, Nat.le_refl _⟩
  · rw [if_neg (by omega), if_neg (by omega), show i + 1 + (falseOffset - (i + 2)) = falseOffset - 1
      by omega]
    obtain ⟨q, hq, hends⟩ := h (falseOffset - 1) (i + 2) (by omega)
    rw [hq]
    exact falseEnd_some h hends

theorem stepEnd_some (hf : f.Adjacent) (stop : ℕ) (hget : f.code[i]? = some opcode) :
    ∃ p, stepEnd f block stop i opcode = some p ∧ i + 1 ≤ p.next ∧
      ∀ target, p.jump = some target → p.next - 1 < target := by
  by_cases hunpack : opcode.isUnpack
  · obtain ⟨q, hq, hends⟩ := h (i + f.blockSize opcode) (i + 1) (Nat.le_refl _)
    rw [stepEnd_unpack hunpack, hq]
    exact ⟨_, rfl, hends.le, fun target htarget => by cases htarget⟩
  rw [Bool.not_eq_true] at hunpack
  cases hbranch : opcode.offset with
  | none =>
    rw [stepEnd_plain hbranch hunpack]
    exact ⟨_, rfl, Nat.le_refl _, fun target htarget => by cases htarget⟩
  | some offset =>
    cases opcode
    case BrTrue trueOffset =>
      obtain ⟨falseOffset, hnext, hpair⟩ := hf i trueOffset hget
      have hop : opcodeAt f (i + 1) = .Branch falseOffset := by
        rw [opcodeAt, hnext, Option.getD_some]
      obtain ⟨n, hn, hle⟩ := pairEnd_some h hpair
      refine ⟨⟨n, none⟩, ?_, Nat.le_of_succ_le hle, fun target htarget => by cases htarget⟩
      rw [stepEnd_pair hop, hn, Option.map_some]
    case BrFalse => exact ⟨⟨i + 1, none⟩, rfl, Nat.le_refl _, fun target htarget => by cases htarget⟩
    case Branch target =>
      refine ⟨_, rfl, Nat.le_refl _, fun target' htarget => ?_⟩
      by_cases hlt : i < target
      · rw [if_pos hlt, Option.some.injEq] at htarget
        show i < target'
        omega
      · rw [if_neg hlt] at htarget
        cases htarget
    all_goals cases hbranch

end

theorem blockEnd_some (hf : f.Adjacent) (fuel stop : ℕ) (p : Place)
    (hfuel : f.code.length - p.next < fuel)
    (hforward : ∀ target, p.jump = some target → p.next - 1 < target) :
    ∃ q, blockEnd f fuel stop p = some q ∧ Ends stop p q := by
  induction fuel generalizing stop p with
  | zero => omega
  | succ fuel ih =>
    rw [blockEnd]
    by_cases hstop : p.next - 1 < stop
    · rw [if_pos hstop]
      cases hget : f.code[p.next]? with
      | none =>
        refine ⟨_, rfl, Nat.le_succ _, fun target htarget => ?_, fun hno => absurd rfl hno⟩
        cases htarget
      | some opcode =>
        have hlt : p.next < f.code.length := (List.getElem?_eq_some_iff.mp hget).1
        have hblocks : EndsFrom (blockEnd f fuel) (p.next + 1) := by
          intro stop' next hnext
          have hless : f.code.length - next < fuel := by omega
          refine ih stop' ⟨next, none⟩ hless fun target htarget => ?_
          cases htarget
        obtain ⟨p', hp', hle, hforward'⟩ := stepEnd_some hblocks hf stop hget
        obtain ⟨q, hq, hends⟩ := ih stop p' (by omega) hforward'
        refine ⟨q, ?_, ⟨?_, hends.forward, hends.stopped⟩⟩
        · simp only [hp', Option.bind_some, hq]
        · have := hends.le
          omega
    · rw [if_neg hstop]
      exact ⟨p, rfl, Nat.le_refl _, hforward, fun _ => Nat.le_of_not_lt hstop⟩

/-- Code of this shape is laid out, whatever else its jumps are. -/
theorem laidOut_of_adjacent (hf : f.Adjacent) : f.LaidOut := by
  obtain ⟨q, hq, -⟩ := blockEnd_some hf (f.code.length + 1) f.code.length ⟨0, none⟩ (by omega)
    fun target htarget => by cases htarget
  exact Option.isSome_iff_exists.mpr ⟨q, hq⟩

/-! ### Whole bodies -/

/-- A body that can be loaded is translated just where it is laid out, and else there is a panic. -/
theorem translate_iff_laidOut (hload : f.Loadable) :
    ((∃ t, translate f (f.code.length + 1) (bodyTranslator f) = .ok t) ↔ f.LaidOut) ∧
      (¬f.LaidOut → translate f (f.code.length + 1) (bodyTranslator f) = .error .panic) := by
  have hagrees := translate_agrees hload (f.code.length + 1) (bodyTranslator f) rfl
  have hplace : (bodyTranslator f).place f = ⟨0, none⟩ := by
    rw [Translator.place, show (bodyTranslator f).expressions.getLast? = none from rfl,
      jumpOf_of_notNop fun i h => by cases h]
    rfl
  rw [hplace] at hagrees
  have hiff := hagrees.isSome_iff
  refine ⟨hiff.symm, fun hno => ?_⟩
  have hrun := translate_conserves hload (f.code.length + 1) (bodyTranslator f) rfl
    (Nat.lt_succ_self _)
  cases ht : translate f (f.code.length + 1) (bodyTranslator f) with
  | ok t => exact absurd (hiff.mpr ⟨t, ht⟩) hno
  | error e =>
    rw [ht] at hrun
    exact congrArg _ hrun

end

end MoveTools.Disassembler
