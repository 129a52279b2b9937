import MoveTools.Disassembler.Operands

namespace MoveTools.Disassembler

/-! The instructions behind an `Unpack`. -/

theorem letOperand_popExp {t : Translator} {e : ExpLoc} (h : t.expressions.getLast? = some e)
    (he : ∀ l k, e.val ≠ .Let l k) : letOperand t = t.popExp := by
  unfold letOperand Translator.lastExp
  rw [h]
  dsimp only
  split
  · exact absurd ‹_› (he _ _)
  · rfl

theorem letOperand_nothing {t : Translator}
    (h : ∀ e ∈ t.expressions.getLast?, ∃ l k, e.val = .Let l k) :
    letOperand t = (t.loc .Nop, t) := by
  unfold letOperand Translator.lastExp
  cases hlast : t.expressions.getLast? with
  | none => rfl
  | some e =>
    obtain ⟨l, k, he⟩ := h e hlast
    dsimp only
    rw [he]

theorem storesThenPops_cons {discards : Bool} {k : ℕ} {code : List Bytecode}
    (h : storesThenPops discards (k + 1) code = true) :
    ∃ opcode code', code = opcode :: code' ∧
      ((∃ i, opcode = .StLoc i ∧ discards = false ∧ storesThenPops false k code' = true) ∨
        opcode = .Pop ∧ storesThenPops true k code' = true) := by
  cases code with
  | nil => cases h
  | cons opcode code =>
    refine ⟨opcode, code, rfl, ?_⟩
    cases opcode
    case StLoc i =>
      obtain ⟨hd, h⟩ := Bool.and_eq_true_iff.mp h
      exact .inl ⟨i, rfl, by simpa using hd, h⟩
    case Pop => exact .inr ⟨rfl, h⟩
    all_goals cases h

theorem orderly_skip (f : Function) (k c : ℕ) (code : List Bytecode) :
    orderly f k c code = orderly f 0 c (code.drop k) := by
  induction k generalizing code with
  | zero => rfl
  | succ k ih =>
    cases code with
    | nil => rfl
    | cons opcode code => exact ih code

theorem storesThenPops_length {discards : Bool} {k : ℕ} {code : List Bytecode}
    (h : storesThenPops discards k code = true) : k ≤ code.length := by
  induction k generalizing discards code with
  | zero => exact Nat.zero_le _
  | succ k ih =>
    obtain ⟨opcode, code, rfl, ⟨i, _, _, h⟩ | ⟨_, h⟩⟩ := storesThenPops_cons h
    · exact Nat.succ_le_succ (ih h)
    · exact Nat.succ_le_succ (ih h)

section
variable {f : Function} {c : ℕ} {opcode : Bytecode} {code : List Bytecode}

theorem orderly_pop : orderly f 0 c (.Pop :: code) = orderly f 0 0 code := by
  rw [orderly, if_pos rfl]

theorem orderly_unpack {k : ℕ} (hk : unpackCount f.unit opcode = some k) :
    orderly f 0 c (opcode :: code) = true ↔
      (1 ≤ c ∧ storesThenPops false k code = true) ∧ orderly f 0 0 (code.drop k) = true := by
  have hp : opcode ≠ .Pop := by
    intro hp
    subst hp
    cases hk
  rw [orderly, if_neg hp, hk, ← orderly_skip]
  simp

theorem orderly_single {a : Arity} (hp : opcode ≠ .Pop)
    (hk : unpackCount f.unit opcode = none)
    (ha : arity f.unit f.locals.length f.retLen opcode = some a) :
    orderly f 0 c (opcode :: code) = true ↔
      a.pops ≤ c ∧ orderly f 0 (if a.pushes = 1 then c - a.pops + 1 else 0) code = true := by
  rw [orderly, if_neg hp, hk, ha]
  simp

end

/-- The stores and discards pop the fields, the last one first. -/
theorem takes_fields {unit : UnitAccess} {locals retLen k o : ℕ} {discards : Bool}
    {code : List Bytecode} {vs stack : List Value} {popped : List (List Value)}
    (hcode : storesThenPops discards k code = true) (hlen : vs.length = k)
    (h : takes unit locals retLen o code (vs ++ stack) = some popped) :
    takes unit locals retLen (o + k) (code.drop k) stack = some (popped.drop k) ∧
      ∀ (i : ℕ) (v : Value), vs[i]? = some v → popped[i]? = some [v] := by
  induction k generalizing o discards code vs popped with
  | zero =>
    obtain rfl := List.length_eq_zero_iff.mp hlen
    refine ⟨h, fun i v hv => ?_⟩
    rw [List.getElem?_nil] at hv
    cases hv
  | succ k ih =>
    obtain ⟨opcode, code, rfl, hop⟩ := storesThenPops_cons hcode
    obtain ⟨v, vs, rfl⟩ := List.exists_cons_of_length_eq_add_one hlen
    obtain ⟨a, later, ha, _, hlater, rfl⟩ := takes_cons h
    obtain rfl := arity_of_field ha (hop.imp (fun ⟨i, hi, _⟩ => ⟨i, hi⟩) And.left)
    have hrest : storesThenPops (opcode = .Pop) k code = true := by
      rcases hop with ⟨i, rfl, _, hrest⟩ | ⟨rfl, hrest⟩
      · exact hrest
      · exact hrest
    obtain ⟨htakes, hpopped⟩ := ih hrest (Nat.succ.inj hlen) hlater
    refine ⟨?_, fun i w hw => ?_⟩
    · rw [show o + (k + 1) = o + 1 + k by omega]
      exact htakes
    · cases i with
      | zero =>
        cases hw
        rfl
      | succ i => exact hpopped i w hw

section
variable (f : Function)

/-- The record of a store that binds a field, or of a discard. -/
structure IsFieldRecord (r : Record) : Prop where
  index : r.loc.index = r.offset
  madeOf : MadeOf (opcodeAt f r.offset) r.loc.val r.operands
  opcode : opcodeAt f r.offset = .Pop ∨
    (∃ i, opcodeAt f r.offset = .StLoc i) ∧ r.operands = [.mk r.offset .Nop]

/-- Only locals were bound in the block so far. -/
def OnlyStores (t : Translator) : Prop := ∀ e ∈ t.expressions.getLast?, ∃ l k, e.val = .Let l k

variable {f}

theorem nextExp_field {t : Translator} {opcode : Bytecode} {code : List Bytecode} {a : Arity}
    (h : InStep f t) (hr : t.rest = opcode :: code)
    (ha : arity f.unit f.locals.length f.retLen opcode = some a)
    (hop : (∃ i, opcode = .StLoc i) ∧ OnlyStores t ∨ opcode = .Pop)
    (translateBlock : ℕ → Translator → BlockStep) :
    ∃ b, nextExp f translateBlock opcode (t.advance code) = .ok (b, t.advance code) ∧
      IsFieldRecord f ⟨t.next, b.operands, .mk t.next b.exp⟩ ∧
      ((∃ i, opcode = .StLoc i) → ∃ l k, b.exp = .Let l k) ∧ (opcode = .Pop → b.exp = .Nop) := by
  have hat := (h.cons hr).2.1
  rcases hop with ⟨⟨i, rfl⟩, hstores⟩ | rfl
  · obtain ⟨l, hl⟩ := nextExp_stLoc f ha translateBlock
    have hnothing : letOperand (t.advance code) = ((t.advance code).loc .Nop, t.advance code) :=
      letOperand_nothing hstores
    refine ⟨_, (hl _).trans (by rw [hnothing]), ⟨rfl, ?_, .inr ⟨⟨i, hat⟩, rfl⟩⟩,
      fun _ => ⟨_, _, rfl⟩, fun hp => Bytecode.noConfusion hp⟩
    rw [hat]
    exact .inl rfl
  · refine ⟨⟨[], .Nop⟩, rfl, ⟨rfl, ?_, .inl hat⟩, fun ⟨i, hi⟩ => Bytecode.noConfusion hi,
      fun _ => rfl⟩
    rw [hat]
    exact .inl rfl

/-- A run over `k` fields: a record for each, and their expressions in the list. -/
structure RunsOverFields (f : Function) (k : ℕ) (t t' : Translator) (records : List Record) :
    Prop where
  expressions : t'.expressions = t.expressions ++ records.map Record.loc
  built : t'.built = t.built ++ records
  next : t'.next = t.next + k
  length : records.length = k
  records : ∀ i r, records[i]? = some r → r.offset = t.next + i ∧ IsFieldRecord f r

theorem RunsOverFields.recordAt {k i : ℕ} {t t' : Translator} {records : List Record} {r : Record}
    (h : RunsOverFields f k t t' records) (hi : records[i]? = some r) :
    recordAt records (t.next + i) = some r := by
  have hlt : i < records.length := (List.getElem?_eq_some_iff.mp hi).1
  apply List.find?_eq_some_iff_getElem.mpr
  refine ⟨?_, i, hlt, (List.getElem?_eq_some_iff.mp hi).2, fun j hj => ?_⟩
  · simpa using (h.records i r hi).1
  · have hoffset := (h.records j _ (List.getElem?_eq_getElem (Nat.lt_trans hj hlt))).1
    simp only [hoffset, Bool.not_eq_true', decide_eq_false_iff_not]
    omega

/-- Stores and then discards are translated to a binding, or to nothing, for each. -/
theorem translate_stores {k fuel : ℕ} {t : Translator} {discards : Bool} (h : InStep f t)
    (hcode : storesThenPops discards k t.rest = true)
    (harity : ∀ opcode ∈ f.code, ∃ a, arity f.unit f.locals.length f.retLen opcode = some a)
    (hstores : discards = false → OnlyStores t) (hstart : 0 < t.next)
    (hend : t.endOffset = t.opcodeOffset + k) (hfuel : k < fuel) :
    ∃ t' records, translate f fuel t = .ok t' ∧ RunsOverFields f k t t' records := by
  induction k generalizing fuel t discards with
  | zero =>
    obtain ⟨fuel, rfl⟩ := Nat.exists_eq_succ_of_ne_zero (Nat.ne_of_gt hfuel)
    refine ⟨t, [], translate_stop f (by omega) fuel, (List.append_nil _).symm,
      (List.append_nil _).symm, rfl, rfl, fun i r hr => ?_⟩
    rw [List.getElem?_nil] at hr
    cases hr
  | succ k ih =>
    obtain ⟨fuel, rfl⟩ := Nat.exists_eq_succ_of_ne_zero (Nat.ne_of_gt (Nat.zero_lt_of_lt hfuel))
    obtain ⟨opcode, code, hr, hop⟩ := storesThenPops_cons hcode
    have hin := h.cons hr
    obtain ⟨a, ha⟩ := harity opcode (List.mem_of_getElem? hin.1)
    have hop' : (∃ i, opcode = .StLoc i) ∧ OnlyStores t ∨ opcode = .Pop :=
      hop.imp (fun ⟨i, hi, hd, _⟩ => ⟨⟨i, hi⟩, hstores hd⟩) fun hp => hp.1
    obtain ⟨b, hb, hrecord, hlet, _⟩ := nextExp_field h hr ha hop' (blockWith (translate f fuel))
    have hstep : translate f (fuel + 1) t = translate f fuel ((t.advance code).push t.next b) := by
      rw [translate_cons f hr (by omega), hb]
      rfl
    have hrest : storesThenPops (opcode = .Pop) k code = true := by
      rcases hop with ⟨i, rfl, _, hrest⟩ | ⟨rfl, hrest⟩
      · exact hrest
      · exact hrest
    have hstores' : decide (opcode = .Pop) = false → OnlyStores ((t.advance code).push t.next b) := by
      intro hd e he
      rcases hop' with ⟨hi, _⟩ | hp
      · cases (List.getLast?_concat.symm.trans he : some _ = some e)
        exact hlet hi
      · exact absurd hp (of_decide_eq_false hd)
    have hend' : t.endOffset = t.next + k := by
      rw [t.opcodeOffset_eq] at hend
      omega
    obtain ⟨t', records, ht', hrun⟩ :=
      ih (t := (t.advance code).push t.next b) hin.2.2 hrest hstores'
        (Nat.succ_pos _) hend' (Nat.lt_of_succ_lt_succ hfuel)
    refine ⟨t', ⟨t.next, b.operands, .mk t.next b.exp⟩ :: records, hstep.trans ht', ?_, ?_, ?_,
      congrArg Nat.succ hrun.length, fun i r hi => ?_⟩
    · rw [hrun.expressions]
      exact List.append_assoc _ _ _
    · rw [hrun.built]
      exact List.append_assoc _ _ _
    · rw [hrun.next, Translator.next_push, Translator.next_advance]
      omega
    -- the record of this instruction comes before those of the rest
    · cases i with
      | zero =>
        cases hi
        exact ⟨rfl, hrecord⟩
      | succ i =>
        obtain ⟨hoffset, hr⟩ := hrun.records i r hi
        refine ⟨?_, hr⟩
        rw [hoffset, Translator.next_push, Translator.next_advance]
        omega

/-- A store behind an expression that binds nothing takes it. -/
theorem store_takes {fuel i : ℕ} {t t₁ t' : Translator} {code : List Bytecode} {a : Arity}
    {b : Built} {e : ExpLoc} (h : InStep f t)
    (harity : ∀ opcode ∈ f.code, ∃ a, arity f.unit f.locals.length f.retLen opcode = some a)
    (hr : t.rest = .StLoc i :: code)
    (ha : arity f.unit f.locals.length f.retLen (.StLoc i) = some a)
    (hbuilt : ∀ r ∈ t.built, r.offset < t.next) (hend : t.opcodeOffset < t.endOffset)
    (he : t.expressions.getLast? = some e) (hlet : ∀ l k, e.val ≠ .Let l k)
    (hstep : nextExp f (blockWith (translate f fuel)) (.StLoc i) (t.advance code) = .ok (b, t₁))
    (hrest : translate f fuel (t₁.push t.next b) = .ok t') :
    ∃ r, recordAt t'.built t.next = some r ∧ r.operands = [e] := by
  have hran := nextExp_ran f (translate_ran f harity fuel) h hr hend ha hstep
  have hrun := translate_ran f harity fuel _ _ hran.grows.inStep hrest
  obtain ⟨l, hl⟩ := nextExp_stLoc f ha (blockWith (translate f fuel))
  cases (hl _).symm.trans hstep
  refine ⟨_, hrun.grows.built.recordAt_mono
    (recordAt_push hbuilt (letOperand_place (t.advance code)).1), ?_⟩
  have htake : letOperand (t.advance code) = (t.advance code).popExp :=
    letOperand_popExp (t := t.advance code) he hlet
  have hpop : (t.advance code).popExp.1 = e := by
    simp [Translator.popExp, Translator.advance, he]
  rw [htake, hpop]

/-- A block of stores and discards in which every store takes nothing has its stores first: a
store behind a discard takes what the discard left. -/
theorem storesThenPops_of_translate {k fuel : ℕ} {t t' : Translator} {discards : Bool}
    (h : InStep f t) (ht : translate f fuel t = .ok t')
    (harity : ∀ opcode ∈ f.code, ∃ a, arity f.unit f.locals.length f.retLen opcode = some a)
    (hstart : 0 < t.next) (hend : t.endOffset = t.opcodeOffset + k)
    (hbuilt : ∀ r ∈ t.built, r.offset < t.next)
    (hblock : ∀ o, t.next ≤ o → o < t.next + k → ∃ opcode, f.code[o]? = some opcode ∧
      ((∃ i, opcode = .StLoc i) ∧ (∀ r, recordAt t'.built o = some r → r.operands = [.mk o .Nop]) ∨
        opcode = .Pop))
    (hlast : if discards then
      ∃ e, t.expressions.getLast? = some e ∧ e.index < t.next ∧ e.val = .Nop else OnlyStores t) :
    storesThenPops discards k t.rest = true := by
  induction k generalizing fuel t discards with
  | zero =>
    cases t.rest <;> rfl
  | succ k ih =>
    obtain ⟨opcode, hget, hop⟩ := hblock t.next (Nat.le_refl _) (by omega)
    obtain ⟨code, hr⟩ : ∃ code, t.rest = opcode :: code := by
      rw [← List.head?_drop, ← h] at hget
      exact ⟨_, List.eq_cons_of_mem_head? hget⟩
    cases fuel with
    | zero => cases ht
    | succ fuel =>
      have hin := h.cons hr
      obtain ⟨a, ha⟩ := harity opcode (List.mem_of_getElem? hin.1)
      rw [translate_cons f hr (by omega)] at ht
      obtain ⟨⟨b, t₁⟩, hstep, hrest⟩ := Collect.bind_eq_ok.mp ht
      have hend' : t.endOffset = t.next + k := by
        rw [t.opcodeOffset_eq] at hend
        omega
      rw [hr]
      by_cases hfield : (∃ i, opcode = .StLoc i) ∧ OnlyStores t ∨ opcode = .Pop
      -- a store that follows no discard, or a discard: nothing is taken, and the pattern goes on
      · obtain ⟨b', hb, _, hlet, hnop⟩ :=
          nextExp_field h hr ha hfield (blockWith (translate f fuel))
        cases hb.symm.trans hstep
        have hlast' : ((t.advance code).push t.next b).expressions.getLast? =
            some (.mk t.next b.exp) := List.getLast?_concat
        have hrest' : storesThenPops (opcode = .Pop) k code = true := by
          apply ih (t := (t.advance code).push t.next b) hin.2.2 hrest (Nat.succ_pos _) hend'
          · exact offset_push hbuilt (.refl _)
          · intro o ho hlt
            exact hblock o (Nat.le_of_succ_le ho) (by simp at hlt; omega)
          · by_cases hp : opcode = .Pop
            · rw [if_pos (decide_eq_true hp)]
              exact ⟨_, hlast', Nat.lt_succ_self _, hnop hp⟩
            · rw [if_neg (by simpa using hp)]
              intro e he
              cases hlast'.symm.trans he
              exact hlet (hfield.resolve_right hp).1
        rcases hfield with ⟨⟨i, rfl⟩, hstores⟩ | rfl
        · cases discards with
          | false => exact hrest'
          | true =>
            obtain ⟨e, he, _, hnothing⟩ := hlast
            obtain ⟨l, k, hl⟩ := hstores e he
            exact absurd (hl.symm.trans hnothing) Exp.noConfusion
        · exact hrest'
      · rcases hop with ⟨⟨i, rfl⟩, hrecord⟩ | rfl
        · cases discards with
          | false => exact absurd (.inl ⟨⟨i, rfl⟩, hlast⟩) hfield
          | true =>
            -- a store behind a discard takes what was discarded, and its record would say so
            obtain ⟨e, he, hlt, hnothing⟩ := hlast
            have hlet : ∀ l k, e.val ≠ .Let l k := fun l k hl =>
              Exp.noConfusion (hnothing.symm.trans hl)
            obtain ⟨r, hr', hops⟩ :=
              store_takes h harity hr ha hbuilt (by omega) he hlet hstep hrest
            have hsame := List.singleton_inj.mp (hops.symm.trans (hrecord r hr'))
            rw [hsame] at hlt
            exact absurd hlt (Nat.lt_irrefl _)
        · exact absurd (.inr rfl) hfield

end

section
variable {f : Function}

theorem fieldValue_unpackOf (name : StructName) (params : List FType) (names : List String)
    {t inner : Translator} (hlen : inner.expressions.length ≤ names.length) (j : ℕ) :
    fieldValue (unpackOf name params names t inner).1.exp j = (inner.expressions.reverse ++
      List.replicate (names.length - inner.expressions.length) (inner.loc .Nop))[j]? := by
  have hvalues : (inner.expressions.reverse ++ List.replicate
      (names.length - inner.expressions.length) (inner.loc .Nop)).length ≤ names.length := by
    rw [List.length_append, List.length_reverse, List.length_replicate]
    omega
  rw [← values_of_fields hvalues, List.getElem?_map]
  rfl

/-- A field is bound by an `Unpack`, or by something of the block. If the block went too far, the
first field is bound by an `Unpack`. -/
theorem fieldValue_index (name : StructName) (params : List FType) {names : List String}
    {t inner : Translator} (hlen : inner.expressions.length ≤ names.length)
    (hran : Ran f (t.inner names.length) inner) :
    (∃ e, fieldValue (unpackOf name params names t inner).1.exp 0 = some e ∧ e.val.isUnpack) ∨
      ∀ j e, fieldValue (unpackOf name params names t inner).1.exp j = some e →
        e.val.isUnpack ∨ e.index ≤ t.opcodeOffset + names.length := by
  simp only [fieldValue_unpackOf name params names hlen]
  rcases hran.stop with hstop | ⟨e, he, hunpack⟩
  · right
    intro j e he
    rcases List.mem_append.mp (List.mem_of_getElem? he) with he | he
    · rcases hran.mem e (List.mem_reverse.mp he) with he | he | he
      · cases he
      · exact .inr he
      · exact .inl he
    · rw [List.eq_of_mem_replicate he]
      refine .inr (Nat.le_trans hstop (Nat.max_le.mpr ⟨Nat.le_add_right _ _, Nat.le_refl _⟩))
  · left
    refine ⟨e, ?_, hunpack⟩
    rw [← List.head?_eq_getElem?, List.head?_append, List.head?_reverse, he]
    rfl

variable {popped : List (List Value)} {log : List Record}

/-- What is said of all instructions from an offset on. -/
def ReconstructedFrom (f : Function) (popped : List (List Value)) (n : ℕ) (log : List Record) :
    Prop :=
  ∀ o, n ≤ o → OperandsAt f popped log o ∧ FieldsAt f popped log o

/-- What the stack machine says of all instructions. -/
def AllPopped (f : Function) (popped : List (List Value)) : Prop :=
  ∀ (o : ℕ) (vs : List Value), popped[o]? = some vs → (∀ v ∈ vs, v.pusher < o) ∧
    ∃ opcode a, f.code[o]? = some opcode ∧
      arity f.unit f.locals.length f.retLen opcode = some a ∧ vs.length = a.pops

theorem hasOperands_iff {opcode : Bytecode} {vs : List Value} {r : Record}
    (hp : opcode ≠ .Pop) (hs : ∀ i, opcode ≠ .StLoc i) :
    HasOperands f log opcode vs r ↔ List.Forall₂ (Supplied f log) vs r.operands := by
  unfold HasOperands
  split
  · exact absurd rfl hp
  · exact absurd rfl (hs _)
  · rfl

theorem field_popper {u k o : ℕ} {opcode : Bytecode} {vs : List Value} {r : Record} {j : ℕ}
    (hu : unpackCount f.unit (opcodeAt f u) = some k) (hop : f.code[o]? = some opcode)
    (hvs : popped[o]? = some vs) (hj : ⟨u, j⟩ ∈ vs) (hr : recordAt log o = some r)
    (h : OperandsAt f popped log o) :
    (∃ i, opcode = .StLoc i) ∧ r.operands = [.mk o .Nop] ∨ opcode = .Pop := by
  obtain ⟨r', hr', _, hoperands⟩ := h opcode vs hop hvs
  cases hr.symm.trans hr'
  have hnot : ¬List.Forall₂ (Supplied f log) vs r.operands := by
    intro hall
    obtain ⟨e, _, hs⟩ := Collect.exists_of_forall₂ hall.flip ⟨u, j⟩ hj
    exact absurd (hs.1.1.symm.trans hu) (Option.some_ne_none k).symm
  by_cases hp : opcode = .Pop
  · exact .inr hp
  by_cases hs : ∃ i, opcode = .StLoc i
  · obtain ⟨i, rfl⟩ := hs
    rcases hoperands with hall | ⟨v, _, hstored⟩
    · exact absurd hall hnot
    · rw [← (recordAt_mem hr).2]
      exact .inl ⟨⟨i, rfl⟩, hstored.1⟩
  · exact absurd ((hasOperands_iff hp fun i hi => hs ⟨i, hi⟩).mp hoperands) hnot

/-- The instruction at `o` pops the field `j` and nothing else, and takes nothing for it. -/
structure Popper (f : Function) (popped : List (List Value)) (log : List Record) (r : Record)
    (u j o : ℕ) : Prop where
  behind : u < o
  alone : popped[o]? = some [⟨u, j⟩]
  binds : ∃ e, fieldValue r.loc.val j = some e ∧ e.index = o ∧ e.val.isUnpack = false
  opcode : ∃ opcode, f.code[o]? = some opcode ∧
    ((∃ i, opcode = .StLoc i) ∧ (∀ s, recordAt log o = some s → s.operands = [.mk o .Nop]) ∨
      opcode = .Pop)

theorem exists_popper {u k j : ℕ} {opcode : Bytecode} {r : Record}
    (hcode : f.code[u]? = some opcode) (hk : unpackCount f.unit opcode = some k) (hj : j < k)
    (hall : AllPopped f popped) (hgood : ReconstructedFrom f popped u log)
    (hmade : ∀ o s, u < o → recordAt log o = some s → Made f s)
    (hr : recordAt log u = some r) : ∃ o, Popper f popped log r u j o := by
  have hat : unpackCount f.unit (opcodeAt f u) = some k := by
    rw [opcodeAt, hcode, Option.getD_some, hk]
  obtain ⟨o, vs, r', s, hvs, hmem, hr', hs, hfield⟩ :=
    (hgood u (Nat.le_refl u)).2 opcode k hcode hk j hj
  cases hr.symm.trans hr'
  obtain ⟨hbefore, opcode', a, hop, ha, hlen⟩ := hall o vs hvs
  have hlt : u < o := hbefore _ hmem
  have hfp := field_popper hat hop hvs hmem hs (hgood o (Nat.le_of_lt hlt)).1
  have hm := hmade o s hlt hs
  have hoffset := (recordAt_mem hs).2
  have hopAt : opcodeAt f s.offset = opcode' := by
    rw [hoffset, opcodeAt, hop, Option.getD_some]
  -- the field is alone among what its instruction takes
  have halone : vs = [⟨u, j⟩] := by
    rw [arity_of_field ha (hfp.imp_left And.left)] at hlen
    obtain ⟨v, rfl⟩ := List.length_eq_one_iff.mp hlen
    rw [List.mem_singleton.mp hmem]
  have hnot : unpackCount f.unit opcode' = none := by
    rcases hfp with ⟨⟨i, rfl⟩, _⟩ | rfl
    · rfl
    · rfl
  refine ⟨o, hlt, halone ▸ hvs, ⟨s.loc, hfield, ?_, ?_⟩, opcode', hop, ?_⟩
  · rw [hm.index (hopAt.symm ▸ hnot), hoffset]
  · rcases hfp with ⟨⟨i, rfl⟩, _⟩ | rfl
    · obtain ⟨l, e, he⟩ := hm.stLoc i hopAt
      rw [he]
      rfl
    · rw [hm.pop hopAt]
      rfl
  · apply hfp.imp_left
    intro h
    refine ⟨h.1, fun s' hs' => ?_⟩
    cases hs.symm.trans hs'
    exact h.2

/-- If every field is bound by what pops it, the instructions behind the `Unpack` are stores that
take nothing and discards. -/
theorem block_of_fields {u k : ℕ} {opcode : Bytecode} {r : Record}
    (hcode : f.code[u]? = some opcode) (hk : unpackCount f.unit opcode = some k)
    (hall : AllPopped f popped) (hgood : ReconstructedFrom f popped u log)
    (hmade : ∀ o s, u < o → recordAt log o = some s → Made f s) (hr : recordAt log u = some r)
    (hindex : (∃ e, fieldValue r.loc.val 0 = some e ∧ e.val.isUnpack) ∨
      ∀ j e, fieldValue r.loc.val j = some e → e.val.isUnpack ∨ e.index ≤ u + k) {o : ℕ}
    (ho : u < o) (ho' : o ≤ u + k) :
    ∃ opcode, f.code[o]? = some opcode ∧
      ((∃ i, opcode = .StLoc i) ∧ (∀ s, recordAt log o = some s → s.operands = [.mk o .Nop]) ∨
        opcode = .Pop) := by
  -- each of the `k` fields has its popper
  have hpopper : ∀ j, ∃ o, j < k → Popper f popped log r u j o := by
    intro j
    by_cases hj : j < k
    · obtain ⟨o, h⟩ := exists_popper hcode hk hj hall hgood hmade hr
      exact ⟨o, fun _ => h⟩
    · exact ⟨0, fun h => absurd h hj⟩
  choose offset hoffset using hpopper
  have hle : ∀ j < k, offset j ≤ u + k := by
    intro j hj
    obtain ⟨e, he, hind, hnot⟩ := (hoffset j hj).binds
    rcases hindex with ⟨e', he', hunpack⟩ | hindex
    · obtain ⟨e₀, he₀, _, hnot₀⟩ := (hoffset 0 (Nat.zero_lt_of_lt hj)).binds
      cases he'.symm.trans he₀
      rw [hunpack] at hnot₀
      cases hnot₀
    · rcases hindex j e he with hunpack | hle
      · rw [hunpack] at hnot
        cases hnot
      · exact hind ▸ hle
  -- an instruction takes one field, so the poppers stand at distinct offsets
  have hinj : ∀ j < k, ∀ j' < k, offset j = offset j' → j = j' := by
    intro j hj j' hj' h
    have halone := (hoffset j hj).alone
    rw [h, (hoffset j' hj').alone] at halone
    cases halone
    rfl
  obtain ⟨j, hj, rfl⟩ :=
    Collect.exists_of_distinct (fun j hj => (hoffset j hj).behind) hle hinj ho ho'
  exact (hoffset j hj).opcode

end

end MoveTools.Disassembler
