import MoveTools.Disassembler.Fields

namespace MoveTools.Disassembler

/-! Which code the translator reconstructs. -/

section
variable {f : Function} {popped : List (List Value)} {log : List Record} {o : ℕ}
  {opcode : Bytecode}

theorem OperandsAt.of_record {vs : List Value} {r : Record} (hop : f.code[o]? = some opcode)
    (hvs : popped[o]? = some vs) (hr : recordAt log o = some r)
    (hm : MadeOf opcode r.loc.val r.operands) (h : HasOperands f log opcode vs r) :
    OperandsAt f popped log o := by
  intro opcode' vs' hop' hvs'
  cases hop.symm.trans hop'
  cases hvs.symm.trans hvs'
  exact ⟨r, hr, hm, h⟩

theorem FieldsAt.of_none (hop : f.code[o]? = some opcode)
    (hu : unpackCount f.unit opcode = none) : FieldsAt f popped log o := by
  intro opcode' k hop' hk
  cases hop.symm.trans hop'
  exact absurd (hu.symm.trans hk) (Option.some_ne_none k).symm

theorem getElem?_of_drop {n : ℕ} {vs : List Value} {later : List (List Value)}
    (h : popped.drop n = vs :: later) : popped[n]? = some vs ∧ popped.drop (n + 1) = later := by
  refine ⟨?_, ?_⟩
  · rw [← List.head?_drop, h, List.head?_cons]
  · rw [← List.tail_drop, h, List.tail_cons]

end

/-! ### One step of the translator -/

section
variable (f : Function) (popped : List (List Value))

/-- The instructions up to `t'` are translated, each with its operands. -/
structure Advances (fuel : ℕ) (t t' : Translator) (stack' : List Value) (c' : ℕ) : Prop where
  run : translate f (fuel + 1) t = translate f fuel t'
  ran : Ran f t t'
  tracks : Tracks f t' stack' c'
  values : takes f.unit f.locals.length f.retLen t'.next t'.rest stack' =
    some (popped.drop t'.next)
  shorter : t'.rest.length < t.rest.length
  good : ∀ o, t.next ≤ o → o < t'.next →
    OperandsAt f popped t'.built o ∧ FieldsAt f popped t'.built o

/-- The run gives a result in which all instructions from here on have their operands. -/
def Rebuilds (fuel : ℕ) (t : Translator) : Prop :=
  ∃ t', translate f fuel t = .ok t' ∧ ReconstructedFrom f popped t.next t'.built

variable {f popped}

theorem Advances.rebuilds_iff {fuel c' : ℕ} {t t' : Translator} {stack' : List Value}
    (h : Advances f popped fuel t t' stack' c')
    (harity : ∀ opcode ∈ f.code, ∃ a, arity f.unit f.locals.length f.retLen opcode = some a) :
    Rebuilds f popped (fuel + 1) t ↔ Rebuilds f popped fuel t' := by
  unfold Rebuilds
  rw [h.run]
  constructor
  · intro ⟨t'', ht, hgood⟩
    exact ⟨t'', ht, fun o ho => hgood o (Nat.le_trans h.ran.grows.next ho)⟩
  · intro ⟨t'', ht, hgood⟩
    have hran := translate_ran f harity fuel t' t'' h.ran.grows.inStep ht
    refine ⟨t'', ht, fun o ho => ?_⟩
    by_cases hlt : o < t'.next
    · obtain ⟨hoperands, hfields⟩ := h.good o ho hlt
      exact ⟨hoperands.mono hran.grows.built, hfields.mono hran.grows.built⟩
    · exact hgood o (Nat.le_of_not_lt hlt)

end

section
variable {f : Function} {popped : List (List Value)} {t t' : Translator} {stack : List Value}
  {c fuel : ℕ} {opcode : Bytecode} {code : List Bytecode} {b : Built} {a : Arity}

theorem Advances.single {stack' : List Value} {c' : ℕ} (h : Tracks f t stack c)
    (hr : t.rest = opcode :: code) (he : t.opcodeOffset < t.endOffset)
    (hu : unpackCount f.unit opcode = none)
    (hstep : nextExp f (blockWith (translate f fuel)) opcode (t.advance code) = .ok (b, t'))
    (hs : SamePlace (t.advance code) t') (hran : Ran f t (t'.push t.next b))
    (hm : MadeOf opcode b.exp b.operands) {vs : List Value} (hvs : popped[t.next]? = some vs)
    (hoperands : HasOperands f (t'.push t.next b).built opcode vs
      ⟨t.next, b.operands, t'.loc b.exp⟩)
    (htracks : Tracks f (t'.push t.next b) stack' c')
    (htakes : takes f.unit f.locals.length f.retLen (t.next + 1) code stack' =
      some (popped.drop (t.next + 1))) :
    Advances f popped fuel t (t'.push t.next b) stack' c' where
  run := by
    rw [translate_cons f hr he, hstep]
    rfl
  ran := hran
  tracks := htracks
  values := by
    have hnext : (t'.push t.next b).next = t.next + 1 := hs.next
    have hrest : (t'.push t.next b).rest = code := hs.rest
    rw [hnext, hrest]
    exact htakes
  shorter := by
    have hrest : (t'.push t.next b).rest = code := hs.rest
    rw [hrest, hr]
    exact Nat.lt_succ_self _
  good := by
    intro o ho hlt
    have hnext : (t'.push t.next b).next = t.next + 1 := hs.next
    rw [hnext] at hlt
    obtain rfl : o = t.next := by omega
    have hop := (h.inStep.cons hr).1
    exact ⟨.of_record hop hvs (recordAt_push h.offsets hs) hm hoperands, .of_none hop hu⟩

theorem Advances.pop (h : Tracks f t stack c) (hr : t.rest = .Pop :: code)
    (he : t.opcodeOffset < t.endOffset)
    (harity : ∀ opcode ∈ f.code, ∃ a, arity f.unit f.locals.length f.retLen opcode = some a)
    {vs : List Value} (hvs : popped[t.next]? = some vs)
    (htakes : takes f.unit f.locals.length f.retLen (t.next + 1) code (stack.drop 1) =
      some (popped.drop (t.next + 1))) :
    ∃ t', Advances f popped fuel t t' (stack.drop 1) 0 ∧ t'.rest = code := by
  have hs := SamePlace.refl (t.advance code)
  have hstep := nextExp_pop f (blockWith (translate f fuel)) (t.advance code)
  have hran := nextExp_ran f (translate_ran f harity fuel) h.inStep hr he rfl hstep
  have hop := (h.inStep.cons hr).2.1
  have hkept : Kept f ⟨t.next, [], (t.advance code).loc .Nop⟩ := by
    intro a ha hpos
    rw [hop] at ha
    cases ha
    exact absurd hpos (Nat.lt_irrefl 0)
  exact ⟨_, .single h hr he rfl hstep hs hran (.inl rfl) hvs trivial
    (h.statement hran hs hkept fun v hv => .inl (List.mem_of_mem_drop hv)) htakes, rfl⟩

theorem Advances.builds (h : Tracks f t stack c) (hr : t.rest = opcode :: code)
    (he : t.opcodeOffset < t.endOffset)
    (harity : ∀ opcode ∈ f.code, ∃ a, arity f.unit f.locals.length f.retLen opcode = some a)
    (ha : arity f.unit f.locals.length f.retLen opcode = some a)
    (hu : unpackCount f.unit opcode = none)
    (hstep : nextExp f (blockWith (translate f fuel)) opcode (t.advance code) = .ok (b, t'))
    (hb : Builds opcode a (t.advance code) b t') (hn : a.pops ≤ c)
    (hvs : popped[t.next]? = some (stack.take a.pops).reverse)
    (htakes : takes f.unit f.locals.length f.retLen (t.next + 1) code
      (pushed t.next a.pushes ++ stack.drop a.pops) = some (popped.drop (t.next + 1))) :
    Advances f popped fuel t (t'.push t.next b) (pushed t.next a.pushes ++ stack.drop a.pops)
      (if a.pushes = 1 then c - a.pops + 1 else 0) := by
  have hran := nextExp_ran f (translate_ran f harity fuel) h.inStep hr he ha hstep
  obtain ⟨htracks, hoperands⟩ := h.step hr ha hu hb hran hn
  refine .single h hr he hu hstep hb.place hran hb.madeOf hvs ?_ htracks htakes
  unfold HasOperands
  split
  · trivial
  · exact .inl hoperands
  · exact hoperands

/-! ### An `Unpack` with its block -/

/-- What a run over an `Unpack` comes to: the block and what was built of it. -/
structure Unpacks (f : Function) (fuel k : ℕ) (t : Translator) (code : List Bytecode)
    (inner t' : Translator) (b : Built) : Prop where
  block : translate f fuel ((t.advance code).inner k) = .ok inner
  blockRan : Ran f ((t.advance code).inner k) inner
  length : inner.expressions.length ≤ k
  built : ∃ name params names, names.length = k ∧
    (b, t') = unpackOf name params names (t.advance code) inner
  ran : Ran f t (t'.push t.next b)
  run : translate f (fuel + 1) t = translate f fuel (t'.push t.next b)

/-- If the block is translated and is not too long, so is the `Unpack`. -/
theorem unpacks_of_block {k : ℕ} {inner : Translator} (h : InStep f t)
    (hr : t.rest = opcode :: code) (he : t.opcodeOffset < t.endOffset)
    (harity : ∀ opcode ∈ f.code, ∃ a, arity f.unit f.locals.length f.retLen opcode = some a)
    (hk : unpackCount f.unit opcode = some k)
    (hblock : translate f fuel ((t.advance code).inner k) = .ok inner)
    (hlen : inner.expressions.length ≤ k) : ∃ b t', Unpacks f fuel k t code inner t' b := by
  obtain ⟨name, params, names, hnames, hunpack⟩ := nextExp_unpack f hk
  have hstep : nextExp f (blockWith (translate f fuel)) opcode (t.advance code) =
      .ok (unpackOf name params names (t.advance code) inner) := by
    rw [hunpack, hblock]
    exact if_pos hlen
  obtain ⟨a, ha⟩ := harity opcode (List.mem_of_getElem? (h.cons hr).1)
  refine ⟨_, _, hblock, translate_ran f harity fuel _ _ (h.cons hr).2.2 hblock, hlen,
    ⟨name, params, names, hnames, rfl⟩,
    nextExp_ran f (translate_ran f harity fuel) h hr he ha hstep, ?_⟩
  rw [translate_cons f hr he, hstep]
  rfl

theorem Unpacks.of_translate {k : ℕ} (h : InStep f t)
    (hr : t.rest = opcode :: code) (he : t.opcodeOffset < t.endOffset)
    (harity : ∀ opcode ∈ f.code, ∃ a, arity f.unit f.locals.length f.retLen opcode = some a)
    (hk : unpackCount f.unit opcode = some k)
    (ht : translate f (fuel + 1) t = .ok t') : ∃ inner t₁ b, Unpacks f fuel k t code inner t₁ b := by
  obtain ⟨name, params, names, hnames, hunpack⟩ := nextExp_unpack f hk
  rw [translate_cons f hr he, hunpack] at ht
  obtain ⟨x, hstep, hrest⟩ := Collect.bind_eq_ok.mp ht
  obtain ⟨inner, hblock, hstep⟩ := Collect.bind_eq_ok.mp hstep
  by_cases hlen : inner.expressions.length ≤ k
  · obtain ⟨b, t₁, hu⟩ := unpacks_of_block h hr he harity hk hblock hlen
    exact ⟨inner, t₁, b, hu⟩
  · rw [if_neg hlen] at hstep
    cases hstep

variable {k : ℕ} {inner : Translator}

theorem Unpacks.taken (h : Unpacks f fuel k t code inner t' b) :
    Taken t.expressions 1 b.operands t'.expressions ∧ SamePlace (.outer (t.advance code) inner) t' ∧
      b.exp.operands = b.operands := by
  obtain ⟨name, params, names, _, hb⟩ := h.built
  have htaken := unpackOf_taken name params names (t.advance code) inner
  rw [← hb] at htaken
  refine ⟨htaken.1, htaken.2, ?_⟩
  have hb' : b = (unpackOf name params names (t.advance code) inner).1 := congrArg Prod.fst hb
  rw [hb']
  rfl

/-- The record of the `Unpack` comes after those of its block, and is the first for its offset. -/
theorem Unpacks.recordAt (h : Unpacks f fuel k t code inner t' b)
    (hbuilt : ∀ r ∈ t.built, r.offset < t.next) :
    recordAt (t'.push t.next b).built t.next = some ⟨t.next, b.operands, t'.loc b.exp⟩ := by
  have hnone : Disassembler.recordAt inner.built t.next = none := by
    rw [h.blockRan.grows.built.recordAt_eq (Nat.lt_succ_self _)]
    exact recordAt_eq_none fun r hr => Nat.ne_of_lt (hbuilt r hr)
  have heq : (t'.push t.next b).built = inner.built ++ [⟨t.next, b.operands, t'.loc b.exp⟩] :=
    congrArg (· ++ [(⟨t.next, b.operands, t'.loc b.exp⟩ : Record)]) h.taken.2.1.built
  rw [heq, recordAt_append, hnone, Option.none_or]
  simp [Disassembler.recordAt]

theorem Unpacks.index (h : Unpacks f fuel k t code inner t' b) :
    (∃ e, fieldValue (t'.loc b.exp).val 0 = some e ∧ e.val.isUnpack) ∨
      ∀ j e, fieldValue (t'.loc b.exp).val j = some e → e.val.isUnpack ∨ e.index ≤ t.next + k := by
  obtain ⟨name, params, names, rfl, hb⟩ := h.built
  have hb' : b = (unpackOf name params names (t.advance code) inner).1 := congrArg Prod.fst hb
  have hindex := fieldValue_index name params h.length h.blockRan
  rw [← hb'] at hindex
  exact hindex

/-! ### Stores and discards behind an `Unpack` -/

variable {records : List Record}

theorem IsFieldRecord.kept {r : Record} (h : IsFieldRecord f r) : Kept f r := by
  intro a ha hpos
  have hop : (∃ i, opcodeAt f r.offset = .StLoc i) ∨ opcodeAt f r.offset = .Pop :=
    h.opcode.symm.imp_left And.left
  rw [arity_of_field ha hop] at hpos
  exact absurd hpos (Nat.lt_irrefl 0)

theorem Unpacks.next (h : Unpacks f fuel k t code inner t' b)
    (hrun : RunsOverFields f k ((t.advance code).inner k) inner records) :
    (t'.push t.next b).next = t.next + 1 + k :=
  h.taken.2.1.next.trans hrun.next

theorem Unpacks.built_eq (h : Unpacks f fuel k t code inner t' b)
    (hrun : RunsOverFields f k ((t.advance code).inner k) inner records) :
    (t'.push t.next b).built = t.built ++ records ++ [⟨t.next, b.operands, t'.loc b.exp⟩] :=
  congrArg (· ++ [(⟨t.next, b.operands, t'.loc b.exp⟩ : Record)])
    (h.taken.2.1.built.trans hrun.built)

theorem Unpacks.tracks (hu : Unpacks f fuel k t code inner t' b) (h : Tracks f t stack c)
    (hr : t.rest = opcode :: code) (hk : unpackCount f.unit opcode = some k)
    (hrun : RunsOverFields f k ((t.advance code).inner k) inner records) :
    Tracks f (t'.push t.next b) (stack.drop 1) 0 := by
  have hnext := hu.next hrun
  -- a record is an old one, or that of a field, or that of the `Unpack`
  have hmem : ∀ r ∈ (t'.push t.next b).built, r ∈ t.built ∨
      (∃ i < k, r.offset = t.next + 1 + i ∧ IsFieldRecord f r) ∨
      r = ⟨t.next, b.operands, t'.loc b.exp⟩ := by
    intro r hr
    rw [hu.built_eq hrun] at hr
    rcases List.mem_append.mp hr with hr | hr
    · refine (List.mem_append.mp hr).imp_right fun hr => .inl ?_
      obtain ⟨i, hi⟩ := List.mem_iff_getElem?.mp hr
      have hlt := (List.getElem?_eq_some_iff.mp hi).1
      exact ⟨i, hrun.length ▸ hlt, hrun.records i r hi⟩
    · exact .inr (.inr (List.mem_singleton.mp hr))
  refine ⟨hu.ran.grows.inStep, fun r hmemr => ?_, fun r hmemr => ?_, fun v hv => ?_,
    .left fun e he v hv _ => ?_⟩
  · rw [hnext]
    rcases hmem r hmemr with hold | ⟨i, hi, hoffset, _⟩ | rfl
    · have := h.offsets r hold
      omega
    · omega
    · change t.next < _
      omega
  · rcases hmem r hmemr with hold | ⟨i, _, _, hfield⟩ | rfl
    · exact h.kept r hold
    · exact hfield.kept
    · intro a _ _ hnone
      rw [(h.inStep.cons hr).2.1, hk] at hnone
      exact absurd hnone (Option.some_ne_none k)
  · have hold := h.pushers v (List.mem_of_mem_drop hv)
    rw [hnext]
    exact ⟨by omega, hold.2⟩
  · change e ∈ (t'.expressions ++ [t'.loc b.exp]).reverse.head? at he
    rw [List.reverse_append] at he
    cases he
    have hindex : t'.opcodeOffset = t.next + k := by
      rw [hu.taken.2.1.opcodeOffset, Translator.opcodeOffset_eq]
      have : (Translator.outer (t.advance code) inner).next = t.next + 1 + k := hrun.next
      omega
    change v.pusher < t'.opcodeOffset
    have := (h.pushers v (List.mem_of_mem_drop hv)).1
    omega

theorem Unpacks.recordAt_field (hu : Unpacks f fuel k t code inner t' b)
    (hrun : RunsOverFields f k ((t.advance code).inner k) inner records)
    (hbuilt : ∀ r ∈ t.built, r.offset < t.next) {i : ℕ} {r : Record}
    (hi : records[i]? = some r) :
    Disassembler.recordAt (t'.push t.next b).built (t.next + 1 + i) = some r := by
  have hnone : Disassembler.recordAt t.built (t.next + 1 + i) = none := by
    apply recordAt_eq_none
    intro r hr
    have := hbuilt r hr
    omega
  have hrec : Disassembler.recordAt records (t.next + 1 + i) = some r := hrun.recordAt hi
  rw [hu.built_eq hrun, recordAt_append, recordAt_append, hnone, Option.none_or, hrec,
    Option.some_or]

theorem Unpacks.fieldValue (hu : Unpacks f fuel k t code inner t' b)
    (hrun : RunsOverFields f k ((t.advance code).inner k) inner records) {j : ℕ} {r : Record}
    (hj : j < k) (hr : records[k - 1 - j]? = some r) :
    Disassembler.fieldValue (t'.loc b.exp).val j = some r.loc := by
  obtain ⟨name, params, names, hnames, hb⟩ := hu.built
  have hb' : b = (unpackOf name params names (t.advance code) inner).1 := congrArg Prod.fst hb
  have hexp : inner.expressions = records.map Record.loc := hrun.expressions
  have hlen : inner.expressions.length = k := by rw [hexp, List.length_map, hrun.length]
  change Disassembler.fieldValue b.exp j = _
  rw [hb', fieldValue_unpackOf name params names (by omega), hlen, hnames, Nat.sub_self,
    List.replicate_zero, List.append_nil, List.getElem?_reverse (by omega), hlen, hexp,
    List.getElem?_map, hr, Option.map_some]

theorem Unpacks.good_field (hu : Unpacks f fuel k t code inner t' b) (h : Tracks f t stack c)
    (hrun : RunsOverFields f k ((t.advance code).inner k) inner records) {i : ℕ} (hi : i < k)
    (hvs : popped[t.next + 1 + i]? = some [⟨t.next, k - 1 - i⟩]) :
    OperandsAt f popped (t'.push t.next b).built (t.next + 1 + i) ∧
      FieldsAt f popped (t'.push t.next b).built (t.next + 1 + i) := by
  have hlt : i < records.length := hrun.length ▸ hi
  have hr : records[i]? = some records[i] := List.getElem?_eq_getElem hlt
  obtain ⟨hoffset, hfield⟩ := hrun.records i _ hr
  have hat : ∀ opcode, f.code[t.next + 1 + i]? = some opcode →
      opcodeAt f records[i].offset = opcode := by
    intro opcode hop
    have hoffset' : records[i].offset = t.next + 1 + i := hoffset
    rw [hoffset', opcodeAt, hop, Option.getD_some]
  refine ⟨fun opcode vs hop hvs' => ?_, fun opcode n hop hn => ?_⟩
  · cases hvs.symm.trans hvs'
    refine ⟨_, hu.recordAt_field hrun h.offsets hr, hat opcode hop ▸ hfield.madeOf, ?_⟩
    rcases hfield.opcode with hpop | ⟨⟨l, hstore⟩, hops⟩
    · obtain rfl : opcode = .Pop := (hat opcode hop).symm.trans hpop
      trivial
    · obtain rfl : opcode = .StLoc l := (hat opcode hop).symm.trans hstore
      have hback : k - 1 - (k - 1 - i) = i := by omega
      have hcount : k - 1 - i < k := by omega
      exact .inr ⟨_, rfl, hops, _, hu.recordAt h.offsets,
        hu.fieldValue hrun hcount (hback.symm ▸ hr)⟩
  · rcases hfield.opcode with hpop | ⟨⟨l, hstore⟩, _⟩
    · obtain rfl : opcode = .Pop := (hat opcode hop).symm.trans hpop
      cases hn
    · obtain rfl : opcode = .StLoc l := (hat opcode hop).symm.trans hstore
      cases hn

theorem Advances.unpack (h : Tracks f t stack c) (hr : t.rest = opcode :: code)
    (he : t.opcodeOffset < t.endOffset)
    (harity : ∀ opcode ∈ f.code, ∃ a, arity f.unit f.locals.length f.retLen opcode = some a)
    (hk : unpackCount f.unit opcode = some k) (hc : 1 ≤ c)
    (hcode : storesThenPops false k code = true) (hfuel : k < fuel)
    (hvs : popped[t.next]? = some (stack.take 1).reverse)
    (htakes : takes f.unit f.locals.length f.retLen (t.next + 1) code
      (pushed t.next k ++ stack.drop 1) = some (popped.drop (t.next + 1))) :
    ∃ t', Advances f popped fuel t t' (stack.drop 1) 0 ∧ t'.rest = code.drop k := by
  have hin := h.inStep.cons hr
  have hempty : OnlyStores ((t.advance code).inner k) := fun e hmem => absurd hmem (by
    simp [Translator.inner])
  -- the stores and discards are translated in a block, to `k` expressions
  obtain ⟨inner, records, hblock, hrun⟩ := translate_stores (t := (t.advance code).inner k)
    hin.2.2 hcode harity (fun _ => hempty) (Nat.succ_pos _) rfl hfuel
  have hlen : inner.expressions.length ≤ k := by
    have hexp : inner.expressions = records.map Record.loc := hrun.expressions
    rw [hexp, List.length_map, hrun.length]
  obtain ⟨b, t', hu⟩ := unpacks_of_block h.inStep hr he harity hk hblock hlen
  have hlenPushed : (pushed t.next k).length = k := by simp [pushed]
  obtain ⟨hvalues, hfields⟩ := takes_fields hcode hlenPushed htakes
  have hnext := hu.next hrun
  have hdrop : f.code.drop (t.next + 1) = code := hin.2.2.symm
  have hrest : (t'.push t.next b).rest = code.drop k := by
    rw [hu.ran.grows.inStep, hnext, ← hdrop, List.drop_drop]
  have hpopped : ∀ j < k, popped[t.next + 1 + (k - 1 - j)]? = some [⟨t.next, j⟩] := by
    intro j hj
    have hfield := hfields _ _ (getElem?_pushed hj)
    rwa [List.getElem?_drop] at hfield
  have hoperands : OperandsAt f popped (t'.push t.next b).built t.next := by
    have hsupplied := (h.taken hc hu.taken.1).1.imp fun _ _ hv => hv.mono hu.ran.grows.built
    refine .of_record hin.1 hvs (hu.recordAt h.offsets) ?_ ?_
    · cases opcode
      case Unpack | UnpackGeneric => exact .inl hu.taken.2.2
      all_goals cases hk
    · cases opcode
      case Unpack | UnpackGeneric => exact hsupplied
      all_goals cases hk
  refine ⟨t'.push t.next b, ⟨hu.run, hu.ran, hu.tracks h hr hk hrun, ?_, ?_, fun o ho hlt => ?_⟩,
    hrest⟩
  · rw [hrest, hnext, hvalues, List.drop_drop]
  · rw [hrest, hr, List.length_drop, List.length_cons]
    omega
  · rw [hnext] at hlt
    -- the `Unpack` itself, and then each of its fields
    by_cases hfirst : o = t.next
    · subst hfirst
      refine ⟨hoperands, fun opcode' k' hop' hk' j hj => ?_⟩
      cases hin.1.symm.trans hop'
      cases hk.symm.trans hk'
      have hlt' : k - 1 - j < records.length := by
        rw [hrun.length]
        omega
      have hrec : records[k - 1 - j]? = some records[k - 1 - j] := List.getElem?_eq_getElem hlt'
      exact ⟨_, _, _, _, hpopped j hj, List.mem_singleton_self _, hu.recordAt h.offsets,
        hu.recordAt_field hrun h.offsets hrec, hu.fieldValue hrun hj hrec⟩
    · obtain ⟨i, rfl⟩ : ∃ i, o = t.next + 1 + i := ⟨o - (t.next + 1), by omega⟩
      have hi : i < k := by omega
      have hpop := hpopped (k - 1 - i) (by omega)
      rw [show k - 1 - (k - 1 - i) = i by omega] at hpop
      exact hu.good_field h hrun hi hpop

/-! ### What goes wrong -/

/-- In a run that goes well, what was built first has its operands in the whole log. -/
theorem Rebuilds.operands (h : Rebuilds f popped (fuel + 1) t) (hin : InStep f t)
    (hr : t.rest = opcode :: code)
    (harity : ∀ opcode ∈ f.code, ∃ a, arity f.unit f.locals.length f.retLen opcode = some a)
    (hrun : translate f (fuel + 1) t = translate f fuel (t'.push t.next b))
    (hran : Ran f t (t'.push t.next b)) {r : Record}
    (hrec : recordAt (t'.push t.next b).built t.next = some r) {vs : List Value}
    (hvs : popped[t.next]? = some vs) :
    ∃ log, Extends f t.next t.built log ∧ HasOperands f log opcode vs r := by
  obtain ⟨t'', ht, hgood⟩ := h
  rw [hrun] at ht
  have hlast := translate_ran f harity fuel _ _ hran.grows.inStep ht
  obtain ⟨r', hr', _, hoperands⟩ := (hgood t.next (Nat.le_refl _)).1 opcode vs (hin.cons hr).1 hvs
  cases (hlast.grows.built.recordAt_mono hrec).symm.trans hr'
  exact ⟨t''.built, hran.grows.built.trans hlast.grows.built hran.grows.next, hoperands⟩

theorem Tracks.not_rebuilds (h : Tracks f t stack c) (hr : t.rest = opcode :: code)
    (he : t.opcodeOffset < t.endOffset)
    (harity : ∀ opcode ∈ f.code, ∃ a, arity f.unit f.locals.length f.retLen opcode = some a)
    (ha : arity f.unit f.locals.length f.retLen opcode = some a)
    (hu : unpackCount f.unit opcode = none) (hp : opcode ≠ .Pop) (hs : ∀ i, opcode ≠ .StLoc i)
    (hn : c < a.pops) (hlen : a.pops ≤ stack.length)
    (hvs : popped[t.next]? = some (stack.take a.pops).reverse) :
    ¬Rebuilds f popped (fuel + 1) t := by
  intro hgood
  obtain ⟨b, t', hstep, hb⟩ :=
    nextExp_builds f ha hu hp hs (blockWith (translate f fuel)) (t.advance code)
  have hran := nextExp_ran f (translate_ran f harity fuel) h.inStep hr he ha hstep
  have hrun : translate f (fuel + 1) t = translate f fuel (t'.push t.next b) := by
    rw [translate_cons f hr he, hstep]
    rfl
  obtain ⟨log, hlog, hoperands⟩ :=
    hgood.operands h.inStep hr harity hrun hran (recordAt_push h.offsets hb.place) hvs
  exact h.not_operands hlog hn hlen hb.taken ((hasOperands_iff hp hs).mp hoperands)

theorem letOperand_taken (t : Translator) :
    Taken t.expressions 1 [(letOperand t).1] (letOperand t).2.expressions ∨
      (letOperand t).1.val = .Nop := by
  unfold letOperand
  split
  · split
    · exact .inr rfl
    · exact .inl (popExp_taken t).1
  · exact .inr rfl

theorem Tracks.not_rebuilds_store {i : ℕ} (h : Tracks f t stack 0)
    (hr : t.rest = .StLoc i :: code) (he : t.opcodeOffset < t.endOffset)
    (harity : ∀ opcode ∈ f.code, ∃ a, arity f.unit f.locals.length f.retLen opcode = some a)
    (ha : arity f.unit f.locals.length f.retLen (.StLoc i) = some ⟨1, 0⟩)
    (hlen : 1 ≤ stack.length) (hvs : popped[t.next]? = some (stack.take 1).reverse) :
    ¬Rebuilds f popped (fuel + 1) t := by
  intro hgood
  obtain ⟨l, hl⟩ := nextExp_stLoc f ha (blockWith (translate f fuel))
  have hstep := hl (t.advance code)
  have hplace := (letOperand_place (t.advance code)).1
  have hran := nextExp_ran f (translate_ran f harity fuel) h.inStep hr he ha hstep
  have hrun : translate f (fuel + 1) t = translate f fuel
      ((letOperand (t.advance code)).2.push t.next
        ⟨[(letOperand (t.advance code)).1], .Let l (letOperand (t.advance code)).1⟩) := by
    rw [translate_cons f hr he, hstep]
    rfl
  obtain ⟨log, hlog, hoperands⟩ :=
    hgood.operands h.inStep hr harity hrun hran (recordAt_push h.offsets hplace) hvs
  obtain ⟨v, stack', rfl⟩ := List.exists_cons_of_length_pos hlen
  rcases hoperands with hall | ⟨w, hw, hstored⟩
  · rcases letOperand_taken (t.advance code) with htaken | hnop
    · exact h.not_operands hlog Nat.zero_lt_one hlen htaken hall
    · obtain ⟨hv, _⟩ := List.forall₂_cons.mp hall
      have hsolid := (h.supplied hlog List.mem_cons_self hv).2
      rw [hnop] at hsolid
      cases hsolid
  · cases hw
    exact h.not_stored hlog List.mem_cons_self _ hstored

theorem Tracks.store_builds {i : ℕ} (h : Tracks f t stack c) (hc : 1 ≤ c)
    (ha : arity f.unit f.locals.length f.retLen (.StLoc i) = some a)
    (translateBlock : ℕ → Translator → BlockStep) :
    ∃ b t', nextExp f translateBlock (.StLoc i) (t.advance code) = .ok (b, t') ∧
      Builds (.StLoc i) ⟨1, 0⟩ (t.advance code) b t' := by
  obtain ⟨l, hl⟩ := nextExp_stLoc f ha translateBlock
  have hlast : ∃ e, t.expressions.getLast? = some e ∧ e.val.isSolid := by
    have hexp := h.expressions
    have hlog := Extends.refl (f := f) t.next t.built
    rw [← List.head?_reverse]
    revert hexp hc
    generalize t.expressions.reverse = expressions
    intro hc hexp
    cases hexp with
    | left _ => exact absurd hc (Nat.not_succ_le_zero 0)
    | supplied hv _ => exact ⟨_, rfl, (h.supplied hlog List.mem_cons_self hv).2⟩
  obtain ⟨e, he, hsolid⟩ := hlast
  have hlet : ∀ l k, e.val ≠ .Let l k := by
    intro l k heq
    rw [heq] at hsolid
    cases hsolid
  have htake : letOperand (t.advance code) = (t.advance code).popExp :=
    letOperand_popExp (t := t.advance code) he hlet
  refine ⟨_, _, hl _, ?_, (letOperand_place _).1, .inl rfl,
    fun hpos => absurd hpos (Nat.lt_irrefl 0)⟩
  change Taken _ 1 [(letOperand (t.advance code)).1] (letOperand (t.advance code)).2.expressions
  rw [htake]
  exact (popExp_taken _).1

/-- An `Unpack` goes well only with a struct to take apart, and with its stores and discards right
behind it. -/
theorem Tracks.of_rebuilds_unpack (h : Tracks f t stack c) (hr : t.rest = opcode :: code)
    (he : t.opcodeOffset < t.endOffset)
    (harity : ∀ opcode ∈ f.code, ∃ a, arity f.unit f.locals.length f.retLen opcode = some a)
    (hk : unpackCount f.unit opcode = some k) (hall : AllPopped f popped)
    (hlen : 1 ≤ stack.length) (hvs : popped[t.next]? = some (stack.take 1).reverse)
    (hgood : Rebuilds f popped (fuel + 1) t) :
    1 ≤ c ∧ storesThenPops false k code = true := by
  have hin := h.inStep.cons hr
  obtain ⟨t'', ht, hfrom⟩ := hgood
  obtain ⟨inner, t', b, hu⟩ := Unpacks.of_translate h.inStep hr he harity hk ht
  have hrec := hu.recordAt h.offsets
  refine ⟨?_, ?_⟩
  -- without a value of its own the `Unpack` takes a wrong operand
  · by_contra hc
    obtain ⟨log, hlog, hoperands⟩ := Rebuilds.operands ⟨t'', ht, hfrom⟩ h.inStep hr harity hu.run
      hu.ran hrec hvs
    have hall' : List.Forall₂ (Supplied f log) (stack.take 1).reverse b.operands := by
      cases opcode
      case Unpack | UnpackGeneric => exact hoperands
      all_goals cases hk
    exact h.not_operands hlog (by omega) hlen hu.taken.1 hall'
  -- in its block stand stores and then discards
  · rw [hu.run] at ht
    have hlast := translate_ran f harity fuel _ _ hu.ran.grows.inStep ht
    have hlog := hu.ran.grows.built.trans hlast.grows.built hu.ran.grows.next
    have hmade : ∀ o s, t.next < o → recordAt t''.built o = some s → Made f s :=
      fun o s ho hs => hlog.made h.offsets hs (Nat.le_of_lt ho)
    have hinner : ∀ o s, recordAt inner.built o = some s → recordAt t''.built o = some s := by
      intro o s hs
      apply hlast.grows.built.recordAt_mono
      change recordAt (t'.built ++ _) o = some s
      have houter : recordAt (Translator.outer (t.advance code) inner).built o = some s := hs
      rw [hu.taken.2.1.built, recordAt_append, houter, Option.some_or]
    apply storesThenPops_of_translate (t := (t.advance code).inner k) hin.2.2 hu.block harity
      (Nat.succ_pos _) rfl
    · exact fun r hr => Nat.lt_succ_of_lt (h.offsets r hr)
    · intro o ho hlt
      have ho' : t.next + 1 ≤ o := ho
      have hlt' : o < t.next + 1 + k := hlt
      obtain ⟨opcode', hop, hfield⟩ := block_of_fields hin.1 hk hall hfrom hmade
        (hlast.grows.built.recordAt_mono hrec) hu.index (Nat.lt_of_succ_le ho') (by omega)
      exact ⟨opcode', hop, hfield.imp_left fun ⟨hst, hops⟩ => ⟨hst, fun s hs =>
        hops s (hinner o s hs)⟩⟩
    · exact fun e hmem => absurd hmem (by simp [Translator.inner])

/-- A single instruction whose operands are there is rebuilt. -/
theorem Tracks.single_builds (h : Tracks f t stack c) (hn : a.pops ≤ c)
    (ha : arity f.unit f.locals.length f.retLen opcode = some a)
    (hk : unpackCount f.unit opcode = none) (hp : opcode ≠ .Pop)
    (translateBlock : ℕ → Translator → BlockStep) :
    ∃ b t', nextExp f translateBlock opcode (t.advance code) = .ok (b, t') ∧
      Builds opcode a (t.advance code) b t' := by
  by_cases hs : ∃ i, opcode = .StLoc i
  · obtain ⟨i, rfl⟩ := hs
    obtain rfl := arity_of_field ha (.inl ⟨i, rfl⟩)
    exact h.store_builds hn ha translateBlock
  · exact nextExp_builds f ha hk hp (fun i hi => hs ⟨i, hi⟩) translateBlock _

theorem Tracks.not_rebuilds_single (h : Tracks f t stack c) (hr : t.rest = opcode :: code)
    (he : t.opcodeOffset < t.endOffset)
    (harity : ∀ opcode ∈ f.code, ∃ a, arity f.unit f.locals.length f.retLen opcode = some a)
    (ha : arity f.unit f.locals.length f.retLen opcode = some a)
    (hk : unpackCount f.unit opcode = none) (hp : opcode ≠ .Pop) (hn : c < a.pops)
    (hlen : a.pops ≤ stack.length)
    (hvs : popped[t.next]? = some (stack.take a.pops).reverse) :
    ¬Rebuilds f popped (fuel + 1) t := by
  by_cases hs : ∃ i, opcode = .StLoc i
  · obtain ⟨i, rfl⟩ := hs
    obtain rfl := arity_of_field ha (.inl ⟨i, rfl⟩)
    obtain rfl : c = 0 := Nat.lt_one_iff.mp hn
    exact h.not_rebuilds_store hr he harity ha hlen hvs
  · exact h.not_rebuilds hr he harity ha hk hp (fun i hi => hs ⟨i, hi⟩) hn hlen hvs

theorem Tracks.rebuilds_nil (h : Tracks f t stack c) (hr : t.rest = []) :
    Rebuilds f popped (fuel + 1) t := by
  have hnone : ∀ o, t.next ≤ o → f.code[o]? = none := by
    intro o ho
    have hdrop : f.code.drop t.next = [] := h.inStep.symm.trans hr
    exact List.getElem?_eq_none (Nat.le_trans (List.drop_eq_nil_iff.mp hdrop) ho)
  have hgood : ∀ log, ReconstructedFrom f popped t.next log := by
    intro log o ho
    refine ⟨fun opcode vs hop _ => ?_, fun opcode k hop _ => ?_⟩
    · exact absurd (hop.symm.trans (hnone o ho)) (Option.some_ne_none _)
    · exact absurd (hop.symm.trans (hnone o ho)) (Option.some_ne_none _)
  rcases translate_nil f hr fuel with hstop | ⟨_, hstop⟩
  · exact ⟨_, hstop, hgood _⟩
  · exact ⟨_, hstop, hgood _⟩

end

/-! ### All instructions -/

section
variable {f : Function} {popped : List (List Value)}

/-- The run from an instruction on goes well just if the rest of the code is orderly. The list
tracks the stack up to here. -/
theorem rebuilds_iff (hall : AllPopped f popped)
    (harity : ∀ opcode ∈ f.code, ∃ a, arity f.unit f.locals.length f.retLen opcode = some a)
    {fuel c : ℕ} {t : Translator} {stack : List Value} (h : Tracks f t stack c)
    (hend : t.endOffset = f.code.length)
    (htakes : takes f.unit f.locals.length f.retLen t.next t.rest stack =
      some (popped.drop t.next)) (hfuel : t.rest.length < fuel) :
    Rebuilds f popped fuel t ↔ orderly f 0 c t.rest = true := by
  induction fuel generalizing c t stack with
  | zero => exact absurd hfuel (Nat.not_lt_zero _)
  | succ fuel ih =>
    cases hr : t.rest with
    | nil => exact ⟨fun _ => rfl, fun _ => h.rebuilds_nil hr⟩
    | cons opcode code =>
      rw [hr] at htakes
      obtain ⟨a, later, ha, hlen, hlater, hdrop⟩ := takes_cons htakes
      obtain ⟨hvs, hrest⟩ := getElem?_of_drop hdrop
      rw [← hrest] at hlater
      have hin := h.inStep.cons hr
      have he : t.opcodeOffset < t.endOffset := by
        have hlt := (List.getElem?_eq_some_iff.mp hin.1).1
        rw [hend, t.opcodeOffset_eq]
        omega
      rw [hr, List.length_cons] at hfuel
      -- one step, and the rest of the run by induction
      have hnext : ∀ {t' stack' c'}, Advances f popped fuel t t' stack' c' →
          (Rebuilds f popped (fuel + 1) t ↔ orderly f 0 c' t'.rest = true) := by
        intro t' stack' c' hadv
        have hshorter := hadv.shorter
        rw [hr, List.length_cons] at hshorter
        exact (hadv.rebuilds_iff harity).trans
          (ih hadv.tracks (hadv.ran.endOffset.trans hend) hadv.values (by omega))
      by_cases hp : opcode = .Pop
      · subst hp
        cases ha
        obtain ⟨t', hadv, hrest'⟩ : ∃ t', Advances f popped fuel t t' (stack.drop 1) 0 ∧
            t'.rest = code := Advances.pop h hr he harity hvs hlater
        rw [hnext hadv, hrest', orderly_pop]
      cases hk : unpackCount f.unit opcode with
      | some k =>
        obtain rfl := arity_of_unpack ha hk
        rw [orderly_unpack hk]
        -- behind an `Unpack` stand its stores and discards, or a field has a wrong operand
        by_cases hgood : 1 ≤ c ∧ storesThenPops false k code = true
        · have hlen' := storesThenPops_length hgood.2
          obtain ⟨t', hadv, hrest'⟩ : ∃ t', Advances f popped fuel t t' (stack.drop 1) 0 ∧
              t'.rest = code.drop k :=
            Advances.unpack h hr he harity hk hgood.1 hgood.2 (by omega) hvs hlater
          rw [hnext hadv, hrest']
          exact ⟨fun h => ⟨hgood, h⟩, And.right⟩
        · refine ⟨fun hreb => ?_, fun h => absurd h.1 hgood⟩
          exact absurd (h.of_rebuilds_unpack hr he harity hk hall hlen hvs hreb) hgood
      | none =>
        rw [orderly_single hp hk ha]
        -- with fewer values since the last statement, an operand is a wrong one
        by_cases hn : a.pops ≤ c
        · obtain ⟨b, t', hstep, hb⟩ := h.single_builds hn ha hk hp (blockWith (translate f fuel))
          have hadv := Advances.builds h hr he harity ha hk hstep hb hn hvs hlater
          have hrest' : (t'.push t.next b).rest = code := hb.place.rest
          rw [hnext hadv, hrest']
          exact ⟨fun h => ⟨hn, h⟩, And.right⟩
        · refine ⟨fun hreb => absurd hreb ?_, fun h => absurd h.1 hn⟩
          exact h.not_rebuilds_single hr he harity ha hk hp (Nat.lt_of_not_le hn) hlen hvs

end

/-- On balanced code without branches, all expressions have the operands that the stack machine
pops just if the code is orderly. -/
theorem operands_reconstructed_iff (f : Function) {popped : List (List Value)} {fuel : ℕ}
    (hbalanced : takes f.unit f.locals.length f.retLen 0 f.code [] = some popped)
    (hfuel : f.code.length < fuel) :
    (∃ t, translate f fuel (bodyTranslator f) = .ok t ∧ Reconstructed f popped t.built) ↔
      orderly f 0 0 f.code = true := by
  have hnone : ∀ v ∈ ([] : List Value), v.pusher < 0 := fun v hv => absurd hv List.not_mem_nil
  have hall : AllPopped f popped := by
    intro o vs hvs
    obtain ⟨hbefore, hcount⟩ := takes_popped hbalanced hnone hvs
    exact ⟨fun v hv => by simpa using hbefore v hv, hcount⟩
  have hstart : Tracks f (bodyTranslator f) [] 0 := by
    refine ⟨rfl, ?_, ?_, ?_, .left ?_⟩
    · exact fun r hr => absurd hr List.not_mem_nil
    · exact fun r hr => absurd hr List.not_mem_nil
    · exact fun v hv => absurd hv List.not_mem_nil
    · exact fun e he => absurd he (Option.not_mem_none e)
  have hrebuilds := rebuilds_iff hall (takes_arity hbalanced) hstart rfl hbalanced hfuel
  refine Iff.trans ?_ hrebuilds
  constructor
  · intro ⟨t, ht, h⟩
    exact ⟨t, ht, fun o _ => ⟨h.operands o, h.fields o⟩⟩
  · intro ⟨t, ht, h⟩
    exact ⟨t, ht, fun o => (h o (Nat.zero_le o)).1, fun o => (h o (Nat.zero_le o)).2⟩

theorem sum_reconstructed :
    ∃ t, translate (scriptOf [.LdU64 1, .LdU64 2, .Add, .StLoc 0]) 5
        (bodyTranslator (scriptOf [.LdU64 1, .LdU64 2, .Add, .StLoc 0])) = .ok t ∧
      Reconstructed (scriptOf [.LdU64 1, .LdU64 2, .Add, .StLoc 0])
        [[], [], [⟨0, 0⟩, ⟨1, 0⟩], [⟨2, 0⟩]] t.built :=
  (operands_reconstructed_iff _ rfl (by decide)).mpr (by decide)

/-- `1 + { let x = 2; 3 }`: the left operand of the sum is the binding of `x`. -/
theorem binding_as_operand :
    takes (scriptOf []).unit 2 0 0 [.LdU64 1, .LdU64 2, .StLoc 0, .LdU64 3, .Add, .StLoc 1] [] =
        some [[], [], [⟨1, 0⟩], [], [⟨0, 0⟩, ⟨3, 0⟩], [⟨4, 0⟩]] ∧
      ¬∃ t, translate (scriptOf [.LdU64 1, .LdU64 2, .StLoc 0, .LdU64 3, .Add, .StLoc 1]) 7
          (bodyTranslator
            (scriptOf [.LdU64 1, .LdU64 2, .StLoc 0, .LdU64 3, .Add, .StLoc 1])) = .ok t ∧
        Reconstructed (scriptOf [.LdU64 1, .LdU64 2, .StLoc 0, .LdU64 3, .Add, .StLoc 1])
          [[], [], [⟨1, 0⟩], [], [⟨0, 0⟩, ⟨3, 0⟩], [⟨4, 0⟩]] t.built := by
  refine ⟨rfl, fun ⟨t, ht, h⟩ => ?_⟩
  cases ht
  obtain ⟨r, hr, _, hall⟩ := h.operands 4 .Add [⟨0, 0⟩, ⟨3, 0⟩] rfl rfl
  cases hr
  obtain ⟨⟨_, r, hr, he⟩, _⟩ := List.forall₂_cons.mp hall
  cases hr
  cases he

end MoveTools.Disassembler
