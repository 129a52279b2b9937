import MoveTools.Library.Collect
import MoveTools.Disassembler.Building

namespace MoveTools.Disassembler

/-! Runs of a translator over code without branches. -/

namespace Translator

def next (t : Translator) : ℕ :=
  match t.position with
  | some index => index + 1
  | none => 0

def advance (t : Translator) (code : List Bytecode) : Translator :=
  { t with position := some t.next, rest := code }

def push (t : Translator) (offset : ℕ) (b : Built) : Translator :=
  { t with
    expressions := t.expressions ++ [t.loc b.exp]
    built := t.built ++ [⟨offset, b.operands, t.loc b.exp⟩] }

def inner (t : Translator) (blockSize : ℕ) : Translator :=
  { t with expressions := [], endOffset := t.opcodeOffset + blockSize }

def outer (t inner : Translator) : Translator :=
  { inner with expressions := t.expressions, endOffset := t.endOffset }

@[simp] theorem next_advance (t : Translator) (code : List Bytecode) :
    (t.advance code).next = t.next + 1 := rfl

@[simp] theorem opcodeOffset_advance (t : Translator) (code : List Bytecode) :
    (t.advance code).opcodeOffset = t.next := rfl

@[simp] theorem next_push (t : Translator) (offset : ℕ) (b : Built) :
    (t.push offset b).next = t.next := rfl

@[simp] theorem next_inner (t : Translator) (blockSize : ℕ) : (t.inner blockSize).next = t.next :=
  rfl

@[simp] theorem next_outer (t inner : Translator) : (outer t inner).next = inner.next := rfl

theorem opcodeOffset_eq (t : Translator) : t.opcodeOffset = t.next - 1 := by
  unfold opcodeOffset next
  cases t.position <;> rfl

end Translator

theorem SamePlace.next {t t' : Translator} (h : SamePlace t t') : t'.next = t.next := by
  rw [Translator.next, h.position, Translator.next]

theorem SamePlace.opcodeOffset {t t' : Translator} (h : SamePlace t t') :
    t'.opcodeOffset = t.opcodeOffset := by
  rw [Translator.opcodeOffset, h.position, Translator.opcodeOffset]

section
variable (f : Function)

theorem translate_stop {t : Translator} (h : ¬t.opcodeOffset < t.endOffset) (fuel : ℕ) :
    translate f (fuel + 1) t = .ok t := if_neg h

theorem nextOpcode_nil {t : Translator} (hr : t.rest = []) :
    t.nextOpcode = (none, t.advance []) := by
  obtain ⟨_, rest, position, _, _, _⟩ := t
  cases hr
  cases position <;> rfl

theorem nextOpcode_cons {t : Translator} {opcode : Bytecode} {code : List Bytecode}
    (hr : t.rest = opcode :: code) : t.nextOpcode = (some opcode, t.advance code) := by
  obtain ⟨_, rest, position, _, _, _⟩ := t
  cases hr
  cases position <;> rfl

theorem translate_nil {t : Translator} (hr : t.rest = []) (fuel : ℕ) :
    translate f (fuel + 1) t = .ok t ∨
      t.opcodeOffset < t.endOffset ∧ translate f (fuel + 1) t = .ok (t.advance []) := by
  by_cases h : t.opcodeOffset < t.endOffset
  · refine .inr ⟨h, ?_⟩
    simp only [translate, gt_iff_lt, h, if_true, nextOpcode_nil hr]
  · exact .inl (translate_stop f h fuel)

theorem translate_cons {t : Translator} {opcode : Bytecode} {code : List Bytecode}
    (hr : t.rest = opcode :: code) (h : t.opcodeOffset < t.endOffset) (fuel : ℕ) :
    translate f (fuel + 1) t =
      nextExp f (blockWith (translate f fuel)) opcode (t.advance code) >>= fun x =>
        translate f fuel (x.2.push t.next x.1) := by
  simp only [translate, gt_iff_lt, h, if_true, nextOpcode_cons hr]
  rfl

theorem nextExp_pop (translateBlock : ℕ → Translator → BlockStep) (t : Translator) :
    nextExp f translateBlock .Pop t = .ok (⟨[], .Nop⟩, t) := rfl

theorem letOperand_place (t : Translator) :
    SamePlace t (letOperand t).2 ∧ (letOperand t).2.expressions ⊆ t.expressions := by
  unfold letOperand
  split
  · split
    · exact ⟨.refl t, List.Subset.refl _⟩
    · exact ⟨(popExp_taken t).2, (popExp_taken t).1.subset⟩
  · exact ⟨.refl t, List.Subset.refl _⟩

theorem nextExp_stLoc {index : ℕ} {a : Arity}
    (ha : arity f.unit f.locals.length f.retLen (.StLoc index) = some a)
    (translateBlock : ℕ → Translator → BlockStep) :
    ∃ l, ∀ t, nextExp f translateBlock (.StLoc index) t =
      .ok (⟨[(letOperand t).1], .Let l (letOperand t).1⟩, (letOperand t).2) := by
  obtain ⟨_, l, hl⟩ := localVar_of_arity f ha
  refine ⟨l, fun t => ?_⟩
  simp only [nextExp, Let.exp, hl]
  rfl

/-- What is built of a block that went as far as `inner`. -/
def unpackOf (name : StructName) (typeParams : List FType) (names : List String)
    (t inner : Translator) : Built × Translator :=
  let values := inner.expressions.reverse ++
    List.replicate (names.length - inner.expressions.length) (inner.loc .Nop)
  let source := (Translator.outer t inner).popExp
  (⟨[source.1], .Unpack name typeParams (List.zipWith PackField.mk names values) source.1⟩,
    source.2)

theorem unpackExp_eq {index k : ℕ} (hk : fieldCount f.unit index = some k)
    (typeParams : Option ℕ) :
    ∃ name params names, names.length = k ∧ ∀ translateFrom t,
      Unpack.exp f (blockWith translateFrom) index typeParams t =
        translateFrom (t.inner k) >>= fun inner =>
          if inner.expressions.length ≤ k then .ok (unpackOf name params names t inner)
          else .error .panic := by
  obtain ⟨d, names, hd, hnames, rfl⟩ := fields_of_count f hk
  refine ⟨⟨d.name, d.module⟩, typeArguments f typeParams, names, rfl, fun translateFrom t => ?_⟩
  simp only [Unpack.exp, hd, hnames, Option.getD_some]
  have hinner : { t with expressions := [], endOffset := t.opcodeOffset + names.length } =
      t.inner names.length := rfl
  unfold blockWith
  rw [hinner]
  cases translateFrom (t.inner names.length) with
  | error stop => rfl
  | ok inner =>
    by_cases hlen : inner.expressions.length ≤ names.length
    · simp only [Except.bind, if_pos hlen, bind, usub, unpackOf, pure, Except.pure]
      rfl
    · simp only [Except.bind, if_neg hlen, bind, usub, pure, Except.pure]

theorem nextExp_unpack {opcode : Bytecode} {k : ℕ} (hk : unpackCount f.unit opcode = some k) :
    ∃ name params names, names.length = k ∧ ∀ translateFrom t,
      nextExp f (blockWith translateFrom) opcode t =
        translateFrom (t.inner k) >>= fun inner =>
          if inner.expressions.length ≤ k then .ok (unpackOf name params names t inner)
          else .error .panic := by
  cases opcode
  case Unpack index => exact unpackExp_eq f hk none
  case UnpackGeneric index =>
    obtain ⟨d, hd, hk⟩ := Option.bind_eq_some_iff.mp hk
    obtain ⟨inst, hinst, rfl⟩ := Option.map_eq_some_iff.mp hd
    simp only [nextExp, hinst]
    exact unpackExp_eq f hk (some inst.typeParameters)
  all_goals cases hk

def Exp.isUnpack : Exp → Bool
  | .Unpack _ _ _ _ => true
  | _ => false

/-- What a record of every run says about its expression. -/
structure Made (r : Record) : Prop where
  index : unpackCount f.unit (opcodeAt f r.offset) = none → r.loc.index = r.offset
  unpack : unpackCount f.unit (opcodeAt f r.offset) ≠ none → r.loc.val.isUnpack
  pop : opcodeAt f r.offset = .Pop → r.loc.val = .Nop
  stLoc : ∀ i, opcodeAt f r.offset = .StLoc i → ∃ l e, r.loc.val = .Let l e

/-- The iterator has given all that is in front of the rest. -/
def InStep (t : Translator) : Prop := t.rest = f.code.drop t.next

/-- The log has grown by what was built for instructions from `n` on. -/
def Extends (n : ℕ) (log log' : List Record) : Prop :=
  ∃ more, log' = log ++ more ∧ ∀ r ∈ more, n ≤ r.offset ∧ Made f r

structure Grows (t t' : Translator) : Prop where
  built : Extends f t.next t.built t'.built
  next : t.next ≤ t'.next
  inStep : InStep f t'

section
variable {f}

theorem Extends.refl (n : ℕ) (log : List Record) : Extends f n log log :=
  ⟨[], (List.append_nil log).symm, fun _ h => absurd h List.not_mem_nil⟩

theorem Extends.trans {n n' : ℕ} {log log' log'' : List Record} (h : Extends f n log log')
    (h' : Extends f n' log' log'') (hn : n ≤ n') : Extends f n log log'' := by
  obtain ⟨more, rfl, hmore⟩ := h
  obtain ⟨more', rfl, hmore'⟩ := h'
  refine ⟨more ++ more', List.append_assoc _ _ _, fun r hr => ?_⟩
  rcases List.mem_append.mp hr with hr | hr
  · exact hmore r hr
  · exact ⟨Nat.le_trans hn (hmore' r hr).1, (hmore' r hr).2⟩

theorem Grows.refl {t : Translator} (h : InStep f t) : Grows f t t :=
  ⟨.refl _ _, Nat.le_refl _, h⟩

theorem Grows.trans {t t' t'' : Translator} (h : Grows f t t') (h' : Grows f t' t'') :
    Grows f t t'' :=
  ⟨h.built.trans h'.built h.next, Nat.le_trans h.next h'.next, h'.inStep⟩

theorem InStep.cons {t : Translator} {opcode : Bytecode} {code : List Bytecode}
    (h : InStep f t) (hr : t.rest = opcode :: code) :
    f.code[t.next]? = some opcode ∧ opcodeAt f t.next = opcode ∧ InStep f (t.advance code) := by
  have hdrop : f.code.drop t.next = opcode :: code := h.symm.trans hr
  have hget : f.code[t.next]? = some opcode := by
    rw [← List.head?_drop, hdrop, List.head?_cons]
  refine ⟨hget, by rw [opcodeAt, hget, Option.getD_some], ?_⟩
  change code = f.code.drop (t.next + 1)
  rw [← List.tail_drop, hdrop, List.tail_cons]

theorem Grows.advance {t : Translator} {opcode : Bytecode} {code : List Bytecode}
    (h : InStep f t) (hr : t.rest = opcode :: code) : Grows f t (t.advance code) :=
  ⟨.refl _ _, Nat.le_succ _, (h.cons hr).2.2⟩

theorem Grows.samePlace {t t' : Translator} (h : InStep f t) (hs : SamePlace t t') :
    Grows f t t' := by
  refine ⟨hs.built ▸ .refl _ _, Nat.le_of_eq hs.next.symm, ?_⟩
  rw [InStep, hs.rest, hs.next]
  exact h

theorem Grows.push {t t' : Translator} {b : Built} (h : Grows f t t')
    (hm : Made f ⟨t.next, b.operands, t'.loc b.exp⟩) : Grows f t (t'.push t.next b) := by
  refine ⟨h.built.trans ⟨[⟨t.next, b.operands, t'.loc b.exp⟩], rfl, fun r hr => ?_⟩
    (Nat.le_refl _), h.next, h.inStep⟩
  rw [List.mem_singleton.mp hr]
  exact ⟨Nat.le_refl _, hm⟩

end

theorem nextExp_single {opcode : Bytecode} {a : Arity}
    (ha : arity f.unit f.locals.length f.retLen opcode = some a)
    (hu : unpackCount f.unit opcode = none) (translateBlock : ℕ → Translator → BlockStep)
    (t : Translator) :
    ∃ b t', nextExp f translateBlock opcode t = .ok (b, t') ∧ SamePlace t t' ∧
      t'.expressions ⊆ t.expressions ∧ (opcode = .Pop → b.exp = .Nop) ∧
      ∀ i, opcode = .StLoc i → ∃ l e, b.exp = .Let l e := by
  by_cases hp : opcode = .Pop
  · subst hp
    exact ⟨_, _, rfl, .refl t, List.Subset.refl _, fun _ => rfl,
      fun _ h => Bytecode.noConfusion h⟩
  by_cases hs : ∃ i, opcode = .StLoc i
  · obtain ⟨i, rfl⟩ := hs
    obtain ⟨l, hl⟩ := nextExp_stLoc f ha translateBlock
    exact ⟨_, _, hl t, (letOperand_place t).1, (letOperand_place t).2,
      fun h => Bytecode.noConfusion h, fun _ _ => ⟨l, _, rfl⟩⟩
  · have hs' : ∀ i, opcode ≠ .StLoc i := fun i h => hs ⟨i, h⟩
    obtain ⟨b, t', hstep, hb⟩ := nextExp_builds f ha hu hp hs' translateBlock t
    exact ⟨b, t', hstep, hb.place, hb.taken.subset, fun h => absurd h hp,
      fun i h => absurd h (hs' i)⟩

/-- A run goes beyond its end only with an `Unpack` as its last expression. -/
structure Ran (t t' : Translator) : Prop where
  grows : Grows f t t'
  endOffset : t'.endOffset = t.endOffset
  mem : ∀ e ∈ t'.expressions, e ∈ t.expressions ∨ e.index ≤ t.endOffset ∨ e.val.isUnpack
  stop : t'.opcodeOffset ≤ max t.opcodeOffset t.endOffset ∨
    ∃ e, t'.expressions.getLast? = some e ∧ e.val.isUnpack

section
variable {f}

theorem Ran.refl {t : Translator} (h : InStep f t) : Ran f t t :=
  ⟨.refl h, rfl, fun _ he => .inl he, .inl (Nat.le_max_left _ _)⟩

/-- After an instruction that took a block beyond the end with it, nothing more is translated. -/
theorem Ran.trans {t t' t'' : Translator} (h : Ran f t t') (h' : Ran f t' t'')
    (hs : t.endOffset < t'.opcodeOffset → t'' = t') (ht : t.opcodeOffset ≤ t.endOffset) :
    Ran f t t'' := by
  refine ⟨h.grows.trans h'.grows, h'.endOffset.trans h.endOffset, fun e he => ?_, ?_⟩
  · rcases h'.mem e he with he | he | he
    · exact h.mem e he
    · exact .inr (.inl (h.endOffset ▸ he))
    · exact .inr (.inr he)
  · by_cases hlt : t.endOffset < t'.opcodeOffset
    · exact hs hlt ▸ h.stop
    · refine h'.stop.imp_left fun hle => ?_
      rw [h.endOffset] at hle
      omega

theorem Ran.single {t t' : Translator} {opcode : Bytecode} {code : List Bytecode} {b : Built}
    (h : InStep f t) (hr : t.rest = opcode :: code) (he : t.opcodeOffset < t.endOffset)
    (hs : SamePlace (t.advance code) t') (hsub : t'.expressions ⊆ t.expressions)
    (hm : Made f ⟨t.next, b.operands, t'.loc b.exp⟩) : Ran f t (t'.push t.next b) := by
  have hgrows := (Grows.advance h hr).trans (.samePlace (h.cons hr).2.2 hs)
  have hnext : t.next ≤ t.endOffset := by
    rw [t.opcodeOffset_eq] at he
    omega
  have hoffset : t'.opcodeOffset = t.next := hs.opcodeOffset
  refine ⟨hgrows.push hm, hs.endOffset, fun e hmem => ?_, .inl ?_⟩
  · rcases List.mem_append.mp hmem with hmem | hmem
    · exact .inl (hsub hmem)
    · rw [List.mem_singleton.mp hmem]
      exact .inr (.inl (Nat.le_trans (Nat.le_of_eq hoffset) hnext))
  · change t'.opcodeOffset ≤ _
    omega

theorem Ran.end {t : Translator} (h : InStep f t) (hr : t.rest = [])
    (he : t.opcodeOffset < t.endOffset) : Ran f t (t.advance []) := by
  have hdrop : f.code.drop t.next = [] := h.symm.trans hr
  refine ⟨⟨.refl _ _, Nat.le_succ _, ?_⟩, rfl, fun _ hmem => .inl hmem, .inl ?_⟩
  · change [] = f.code.drop (t.next + 1)
    rw [← List.tail_drop, hdrop, List.tail_nil]
  · rw [t.opcodeOffset_eq] at he
    rw [Translator.opcodeOffset_advance]
    omega

theorem unpackOf_taken (name : StructName) (params : List FType) (names : List String)
    (t inner : Translator) :
    Taken t.expressions 1 (unpackOf name params names t inner).1.operands
        (unpackOf name params names t inner).2.expressions ∧
      SamePlace (.outer t inner) (unpackOf name params names t inner).2 :=
  popExp_taken (.outer t inner)

theorem Ran.unpack {t inner : Translator} {opcode : Bytecode} {code : List Bytecode}
    (h : InStep f t) (hr : t.rest = opcode :: code) {k : ℕ}
    (hk : unpackCount f.unit opcode = some k) (hi : Ran f ((t.advance code).inner k) inner)
    (name : StructName) (params : List FType) (names : List String) :
    Ran f t ((unpackOf name params names (t.advance code) inner).2.push t.next
      (unpackOf name params names (t.advance code) inner).1) := by
  have htaken := unpackOf_taken name params names (t.advance code) inner
  have houter : Grows f (t.advance code) (.outer (t.advance code) inner) :=
    ⟨hi.grows.built, hi.grows.next, hi.grows.inStep⟩
  have hgrows := ((Grows.advance h hr).trans houter).trans
    (.samePlace hi.grows.inStep htaken.2)
  have hop := (h.cons hr).2.1
  refine ⟨hgrows.push ⟨fun hu => ?_, fun _ => rfl, fun hp => ?_, fun i hs => ?_⟩,
    htaken.2.endOffset, fun e hmem => ?_, .inr ⟨_, List.getLast?_concat, rfl⟩⟩
  · rw [hop, hk] at hu
    exact absurd hu (Option.some_ne_none k)
  · rw [hop] at hp
    rw [hp] at hk
    cases hk
  · rw [hop] at hs
    rw [hs] at hk
    cases hk
  · rcases List.mem_append.mp hmem with hmem | hmem
    · exact .inl (htaken.1.subset hmem)
    · rw [List.mem_singleton.mp hmem]
      exact .inr (.inr rfl)

end

theorem translate_stopped {t t' : Translator} (h : ¬t.opcodeOffset < t.endOffset) {fuel : ℕ}
    (ht : translate f fuel t = .ok t') : t' = t := by
  cases fuel with
  | zero => cases ht
  | succ fuel => exact (Except.ok.inj ((translate_stop f h fuel).symm.trans ht)).symm

theorem nextExp_ran {translateFrom : Translator → Except Stop Translator}
    (hblock : ∀ t t', InStep f t → translateFrom t = .ok t' → Ran f t t')
    {t t' : Translator} {opcode : Bytecode} {code : List Bytecode} {a : Arity} {b : Built}
    (h : InStep f t) (hr : t.rest = opcode :: code) (he : t.opcodeOffset < t.endOffset)
    (ha : arity f.unit f.locals.length f.retLen opcode = some a)
    (hstep : nextExp f (blockWith translateFrom) opcode (t.advance code) = .ok (b, t')) :
    Ran f t (t'.push t.next b) := by
  have hop := h.cons hr
  cases hk : unpackCount f.unit opcode with
  | none =>
    obtain ⟨b', t₁, hsingle, hs, hsub, hpop, hst⟩ :=
      nextExp_single f ha hk (blockWith translateFrom) (t.advance code)
    cases hsingle.symm.trans hstep
    refine .single h hr he hs hsub ⟨fun _ => hs.opcodeOffset, fun hu => ?_,
      fun hp => hpop (hop.2.1 ▸ hp), fun i hi => hst i (hop.2.1 ▸ hi)⟩
    exact absurd (hop.2.1 ▸ hk) hu
  | some k =>
    obtain ⟨name, params, names, _, hunpack⟩ := nextExp_unpack f hk
    rw [hunpack] at hstep
    obtain ⟨inner, hinner, hstep⟩ := Collect.bind_eq_ok.mp hstep
    by_cases hle : inner.expressions.length ≤ k
    · rw [if_pos hle] at hstep
      cases Except.ok.inj hstep
      exact .unpack h hr hk (hblock _ _ hop.2.2 hinner) name params names
    · rw [if_neg hle] at hstep
      cases hstep

/-- Whatever a run over code without branches gives, it has only added to the log. -/
theorem translate_ran
    (hcode : ∀ opcode ∈ f.code, ∃ a, arity f.unit f.locals.length f.retLen opcode = some a)
    (fuel : ℕ) (t t' : Translator) (h : InStep f t) (ht : translate f fuel t = .ok t') :
    Ran f t t' := by
  induction fuel generalizing t t' with
  | zero => cases ht
  | succ fuel ih =>
    by_cases he : t.opcodeOffset < t.endOffset
    · cases hr : t.rest with
      | nil =>
        rcases translate_nil f hr fuel with hstop | ⟨_, hstop⟩
        · exact Except.ok.inj (hstop.symm.trans ht) ▸ .refl h
        · exact Except.ok.inj (hstop.symm.trans ht) ▸ .end h hr he
      | cons opcode code =>
        obtain ⟨a, ha⟩ := hcode opcode (List.mem_of_getElem? (h.cons hr).1)
        rw [translate_cons f hr he] at ht
        obtain ⟨⟨b, t₁⟩, hstep, hrest⟩ := Collect.bind_eq_ok.mp ht
        have hfirst := nextExp_ran f ih h hr he ha hstep
        refine hfirst.trans (ih _ _ hfirst.grows.inStep hrest) (fun hlt => ?_) (Nat.le_of_lt he)
        apply translate_stopped f _ hrest
        rw [hfirst.endOffset]
        exact Nat.not_lt_of_lt hlt
    · obtain rfl := translate_stopped f he ht
      exact .refl h

end
end MoveTools.Disassembler
