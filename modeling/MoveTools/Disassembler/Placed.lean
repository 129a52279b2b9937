import MoveTools.Disassembler.Fields
import MoveTools.Disassembler.Instructions

namespace MoveTools.Disassembler

/-! A piece of code wherever it stands: what its translation does to the list depends only on the
piece, its offset and the list. -/

/-- With enough fuel a run from the one translator is a run from the other. -/
def Steps (f : Function) (t t' : Translator) : Prop :=
  ∀ fuel, t.rest.length < fuel →
    ∃ fuel', t'.rest.length < fuel' ∧ translate f fuel t = translate f fuel' t'

structure Stands (t : Translator) (offset : ℕ) (rest : List Bytecode) (es : List ExpLoc)
    (stop : ℕ) : Prop where
  next : t.next = offset
  rest : t.rest = rest
  expressions : t.expressions = es
  endOffset : t.endOffset = stop

/-- In every body that has `code` at `offset`, the list `es` turns into `es'`. -/
def Turns (f : Function) (offset : ℕ) (code : List Bytecode) (es es' : List ExpLoc) : Prop :=
  ∀ body t after stop, body.drop offset = code ++ after →
    Stands t offset (code ++ after) es stop → offset - 1 + code.length ≤ stop →
    ∃ t', Steps (f.on body) t t' ∧ Stands t' (offset + code.length) after es' stop

variable {f : Function} {t t' t'' : Translator} {offset stop : ℕ} {opcode : Bytecode}
  {body code code' after : List Bytecode} {es es' es'' : List ExpLoc}

theorem Steps.refl (f : Function) (t : Translator) : Steps f t t :=
  fun fuel h => ⟨fuel, h, rfl⟩

theorem Steps.trans (h : Steps f t t') (h' : Steps f t' t'') : Steps f t t'' := by
  intro fuel hfuel
  obtain ⟨fuel', hfuel', heq⟩ := h fuel hfuel
  obtain ⟨fuel'', hfuel'', heq'⟩ := h' fuel' hfuel'
  exact ⟨fuel'', hfuel'', heq.trans heq'⟩

theorem Stands.opcodeOffset (h : Stands t offset code es stop) :
    t.opcodeOffset = offset - 1 := by
  rw [t.opcodeOffset_eq, h.next]

theorem Stands.advance (h : Stands t offset (opcode :: code) es stop) :
    Stands (t.advance code) (offset + 1) code es stop :=
  ⟨congrArg (· + 1) h.next, rfl, h.expressions, h.endOffset⟩

theorem Stands.of_samePlace (h : Stands t offset code es stop) (hs : SamePlace t t')
    (hexp : t'.expressions = es') : Stands t' offset code es' stop :=
  ⟨hs.next.trans h.next, hs.rest.trans h.rest, hexp, hs.endOffset.trans h.endOffset⟩

theorem Stands.at {offset' : ℕ} (h : Stands t offset code es stop) (ho : offset = offset') :
    Stands t offset' code es stop := ho ▸ h

theorem drop_add_length {o : ℕ} (h : body.drop o = code ++ after) :
    body.drop (o + code.length) = after := by
  rw [← List.drop_drop, h, List.drop_left]

theorem Turns.nil (f : Function) (offset : ℕ) (es : List ExpLoc) : Turns f offset [] es es :=
  fun _ t _ _ _ ht _ => ⟨t, .refl _ t, ht⟩

theorem Turns.append (h : Turns f offset code es es')
    (h' : Turns f (offset + code.length) code' es' es'') :
    Turns f offset (code ++ code') es es'' := by
  intro body t after stop hbody ht hstop
  rw [List.length_append] at hstop
  rw [List.append_assoc] at hbody ht
  obtain ⟨t', hsteps, ht'⟩ := h body t (code' ++ after) stop hbody ht (by omega)
  obtain ⟨t'', hsteps', ht''⟩ :=
    h' body t' after stop (drop_add_length hbody) ht' (by omega)
  refine ⟨t'', hsteps.trans hsteps', ?_⟩
  rw [List.length_append, ← Nat.add_assoc]
  exact ht''

theorem Turns.of_nextExp (h : ∀ body t after stop,
    body.drop (offset + 1) = code ++ after → opcodeAt (f.on body) offset = opcode →
    Stands t (offset + 1) (code ++ after) es stop →
    ∃ b t' left, (∀ fuel, t.rest.length < fuel →
        nextExp (f.on body) (blockWith (translate (f.on body) fuel)) opcode t = .ok (b, t')) ∧
      Stands t' (offset + 1 + code.length) after left stop ∧
      left ++ [.mk (offset + code.length) b.exp] = es') :
    Turns f offset (opcode :: code) es es' := by
  intro body t after stop hbody ht hstop
  rw [List.length_cons] at hstop ⊢
  rw [List.cons_append] at hbody ht
  have hin : InStep (f.on body) t := by
    rw [InStep, ht.rest, ht.next]
    exact hbody.symm
  obtain ⟨_, hop, hdrop⟩ := hin.cons ht.rest
  rw [ht.next] at hop
  have hdrop' : body.drop (offset + 1) = code ++ after := by
    rw [← ht.next]
    exact hdrop.symm
  obtain ⟨b, t', left, hstep, ht', hleft⟩ := h body _ after stop hdrop' hop ht.advance
  have hlt : t.opcodeOffset < t.endOffset := by
    rw [ht.opcodeOffset, ht.endOffset]
    omega
  have hloc : t'.loc b.exp = .mk (offset + code.length) b.exp := by
    rw [Translator.loc, ht'.opcodeOffset]
    congr 1
    omega
  refine ⟨t'.push t.next b, fun fuel hfuel => ?_, ?_⟩
  · rw [ht.rest, List.length_cons] at hfuel
    obtain ⟨fuel, rfl⟩ := Nat.exists_eq_add_of_lt hfuel
    have hmore : (code ++ after).length < (code ++ after).length + 1 + fuel := by omega
    refine ⟨(code ++ after).length + 1 + fuel, ?_, ?_⟩
    · change t'.rest.length < _
      rw [ht'.rest, List.length_append]
      omega
    · rw [translate_cons _ ht.rest hlt, hstep _ hmore]
      rfl
  · refine ⟨ht'.next.trans (by omega), ht'.rest, ?_, ht'.endOffset⟩
    rw [← hleft, ← hloc, ← ht'.expressions]
    rfl

theorem Turns.single (h : ∀ body t, opcodeAt (f.on body) offset = opcode →
    t.opcodeOffset = offset → t.expressions = es →
    ∃ b t', (∀ translateBlock, nextExp (f.on body) translateBlock opcode t = .ok (b, t')) ∧
      SamePlace t t' ∧ t'.expressions ++ [.mk offset b.exp] = es') :
    Turns f offset [opcode] es es' := by
  apply Turns.of_nextExp
  intro body t after stop _ hop ht
  obtain ⟨b, t', hstep, hs, hes⟩ := h body t hop ht.opcodeOffset ht.expressions
  exact ⟨b, t', _, fun fuel _ => hstep _, ht.of_samePlace hs rfl, hes⟩

/-- A block over a piece is translated to what the piece turns an empty list into. -/
theorem Turns.block (h : Turns f offset code [] es') (hpos : 0 < offset)
    (hbody : body.drop offset = code ++ after) (ht : Stands t offset (code ++ after) es stop) :
    ∃ t', (∀ fuel, t.rest.length < fuel →
        blockWith (translate (f.on body) fuel) code.length t = .ok (es', t')) ∧
      Stands t' (offset + code.length) after es stop := by
  have hinner : Stands (t.inner code.length) offset (code ++ after) []
      (offset - 1 + code.length) :=
    ⟨ht.next, ht.rest, rfl, congrArg (· + code.length) ht.opcodeOffset⟩
  obtain ⟨t', hsteps, ht'⟩ := h body _ after _ hbody hinner (Nat.le_refl _)
  have hend : ¬t'.opcodeOffset < t'.endOffset := by
    rw [ht'.opcodeOffset, ht'.endOffset]
    omega
  refine ⟨.outer t t', fun fuel hfuel => ?_, ht'.next, ht'.rest, ht.expressions, ht.endOffset⟩
  obtain ⟨fuel', hfuel', heq⟩ := hsteps fuel hfuel
  obtain ⟨n, rfl⟩ := Nat.exists_eq_add_of_lt hfuel'
  rw [translate_stop _ hend] at heq
  have hblock : blockWith (translate (f.on body) fuel) code.length t =
      translate (f.on body) fuel (t.inner code.length) >>= fun inner =>
        .ok (inner.expressions, .outer t inner) := rfl
  rw [hblock, heq, ← ht'.expressions]
  rfl

theorem Makes.turns {make : List ExpLoc → Exp} {operands : List ExpLoc}
    (h : Makes f opcode make) (hlen : operands.length = f.operands opcode) (offset : ℕ)
    (left : List ExpLoc) :
    Turns f offset [opcode] (left ++ operands) (left ++ [.mk offset (make operands)]) := by
  apply Turns.single
  intro body t _ _ hexp
  obtain ⟨b, t', hstep, hb, hleft, hs⟩ := h body t left operands hexp hlen
  exact ⟨b, t', hstep, hs, by rw [hleft, hb]⟩

/-- What a store takes from the list at its offset, and what it leaves. -/
def storeOperand (offset : ℕ) (es : List ExpLoc) : ExpLoc × List ExpLoc :=
  match es.getLast? with
  | some e => if e.val.isLet then (.mk offset .Nop, es) else (e, es.dropLast)
  | none => (.mk offset .Nop, es)

theorem isLet_iff {e : Exp} : e.isLet ↔ ∃ l k, e = .Let l k := by
  cases e <;> simp [Exp.isLet]

theorem storeOperand_nothing (h : ∀ e ∈ es.getLast?, e.val.isLet) :
    storeOperand offset es = (.mk offset .Nop, es) := by
  unfold storeOperand
  cases hlast : es.getLast? with
  | none => rfl
  | some e => exact if_pos (h e hlast)

theorem storeOperand_last {left : List ExpLoc} {e : ExpLoc} (he : e.val.isLet = false) :
    storeOperand offset (left ++ [e]) = (e, left) := by
  simp [storeOperand, he]

theorem letOperand_eq (t : Translator) :
    (letOperand t).1 = (storeOperand t.opcodeOffset t.expressions).1 ∧
      (letOperand t).2.expressions = (storeOperand t.opcodeOffset t.expressions).2 := by
  by_cases hnothing : ∀ e ∈ t.expressions.getLast?, e.val.isLet
  · rw [letOperand_nothing fun e he => isLet_iff.mp (hnothing e he), storeOperand_nothing hnothing]
    exact ⟨rfl, rfl⟩
  · rcases List.eq_nil_or_concat t.expressions with h | ⟨left, e, h⟩
    · simp [h] at hnothing
    · rw [List.concat_eq_append] at h
      have hlast : t.expressions.getLast? = some e := by simp [h]
      have he : e.val.isLet = false := by simpa [hlast] using hnothing
      have hpop : ∀ l k, e.val ≠ .Let l k := fun l k heq => by simp [heq, Exp.isLet] at he
      obtain ⟨htaken, hleft, _⟩ := popExp_append h
      rw [letOperand_popExp hlast hpop, htaken, hleft, h, storeOperand_last he]
      exact ⟨rfl, rfl⟩

theorem store_turns {i : ℕ} (hi : i < f.locals.length) : ∃ l, ∀ offset es,
    Turns f offset [.StLoc i] es ((storeOperand offset es).2 ++
      [.mk offset (.Let l (storeOperand offset es).1)]) := by
  have hl : localVar f i = .ok f.locals[i] := by
    rw [localVar, List.getElem?_eq_getElem hi]
  refine ⟨f.locals[i], fun offset es => Turns.single fun body t _ hoffset hexp => ?_⟩
  obtain ⟨hoperand, hleft⟩ := letOperand_eq t
  rw [hoffset, hexp] at hoperand hleft
  refine ⟨⟨[(letOperand t).1], .Let f.locals[i] (letOperand t).1⟩, (letOperand t).2, ?_,
    (letOperand_place t).1, ?_⟩
  · intro translateBlock
    have hlocal : localVar (f.on body) i = .ok f.locals[i] := hl
    rw [nextExp, Let.exp, hlocal]
    rfl
  · rw [hleft, hoperand]

theorem nextExp_isUnpack (hop : f.InBounds opcode) (hunpack : opcode.isUnpack) :
    ∃ index typeParams d, f.unit.structDef index = some d ∧
      f.blockSize opcode = f.fields index ∧ ∀ body translateBlock t,
        nextExp (f.on body) translateBlock opcode t =
          Unpack.exp (f.on body) translateBlock index typeParams t := by
  cases opcode
  case Unpack index =>
    obtain ⟨d, hd⟩ := Option.isSome_iff_exists.mp hop
    exact ⟨index, none, d, hd, rfl, fun _ _ _ => rfl⟩
  case UnpackGeneric index =>
    obtain ⟨handle, hhandle, hd⟩ := isSome_bind hop
    obtain ⟨d, hd⟩ := Option.isSome_iff_exists.mp hd
    obtain ⟨inst, hinst, rfl⟩ := Option.map_eq_some_iff.mp hhandle
    refine ⟨inst.handle, some inst.typeParameters, d, hd, ?_, fun body _ _ => ?_⟩
    · rw [Function.blockSize, hhandle]
      rfl
    · have hunit : (f.on body).unit = f.unit := rfl
      simp only [nextExp, hunit, hinst]
  all_goals cases hunpack

theorem unpackExp_block {index : ℕ} {d : StructDef} {block : List ExpLoc}
    {translateBlock : ℕ → Translator → BlockStep} (hd : f.unit.structDef index = some d)
    (hblock : translateBlock (f.fields index) t = .ok (block, t'))
    (hle : block.length ≤ f.fields index) (typeParams : Option ℕ) :
    Unpack.exp f translateBlock index typeParams t =
      .ok (⟨[t'.popExp.1], .Unpack ⟨d.name, d.module⟩ (typeArguments f typeParams)
        (List.zipWith PackField.mk (d.fields.getD []) (block.reverse ++
          List.replicate (f.fields index - block.length) (t'.loc .Nop))) t'.popExp.1⟩,
        t'.popExp.2) := by
  have hfields : (d.fields.getD []).length = f.fields index := by
    rw [Function.fields, hd, Option.bind_some]
  simp only [Unpack.exp, hd, hfields, hblock, bind, Except.bind, usub, if_pos hle]
  rfl

theorem unpack_turns {stores : List Bytecode} (hop : f.InBounds opcode) (hunpack : opcode.isUnpack)
    (hlen : stores.length = f.blockSize opcode) (h : Turns f (offset + 1) stores [] es)
    (hle : es.length ≤ stores.length) (e : ExpLoc) : ∃ x : Exp, x.isLet = false ∧ ∀ left,
      Turns f offset (opcode :: stores) (left ++ [e])
        (left ++ [.mk (offset + stores.length) x]) := by
  obtain ⟨index, typeParams, d, hd, hsize, hnext⟩ := nextExp_isUnpack hop hunpack
  refine ⟨.Unpack ⟨d.name, d.module⟩ (typeArguments f typeParams)
    (List.zipWith PackField.mk (d.fields.getD []) (es.reverse ++ List.replicate
      (f.fields index - es.length) (.mk (offset + stores.length) .Nop))) e, rfl, fun left => ?_⟩
  apply Turns.of_nextExp
  intro body t after stop hbody _ ht
  obtain ⟨t', hblock, ht'⟩ := h.block (Nat.succ_pos offset) hbody ht
  obtain ⟨htaken, hleft, hs⟩ := popExp_append ht'.expressions
  have hloc : t'.loc .Nop = .mk (offset + stores.length) .Nop := by
    rw [Translator.loc, ht'.opcodeOffset]
    congr 1
    omega
  rw [hlen, hsize] at hblock
  have hle' : es.length ≤ (f.on body).fields index := hle.trans (Nat.le_of_eq (hlen.trans hsize))
  have hstep : ∀ fuel, t.rest.length < fuel →
      nextExp (f.on body) (blockWith (translate (f.on body) fuel)) opcode t = _ := fun fuel hfuel =>
    (hnext body _ t).trans (unpackExp_block (f := f.on body) hd (hblock fuel hfuel) hle' typeParams)
  refine ⟨_, _, left, hstep, ht'.of_samePlace hs hleft, ?_⟩
  rw [hloc, htaken]
  rfl

/-- Where nothing is behind the code, the run ends with what it turns an empty list into. -/
theorem Turns.ends (h : Turns f offset code [] es) (hbody : body.drop offset = code)
    (ht : Stands t offset code [] stop) (hstop : offset - 1 + code.length ≤ stop) {fuel : ℕ}
    (hfuel : code.length < fuel) :
    ∃ t', translate (f.on body) fuel t = .ok t' ∧ t'.expressions = es := by
  obtain ⟨t', hsteps, ht'⟩ := h body t [] stop (by rw [hbody, List.append_nil])
    (by rwa [List.append_nil]) hstop
  obtain ⟨fuel', hfuel', heq⟩ := hsteps fuel (by rwa [ht.rest])
  obtain ⟨n, rfl⟩ := Nat.exists_eq_add_of_lt hfuel'
  rw [heq]
  rcases translate_nil (f.on body) ht'.rest _ with hend | ⟨_, hend⟩
  · exact ⟨t', hend, ht'.expressions⟩
  · exact ⟨_, hend, ht'.expressions⟩

theorem Turns.wholeBody (h : Turns f 0 f.code [] es) {fuel : ℕ} (hfuel : f.code.length < fuel) :
    ∃ t, translate f fuel (bodyTranslator f) = .ok t ∧ t.expressions = es := by
  have hstart : Stands (bodyTranslator f) 0 f.code [] f.code.length := ⟨rfl, rfl, rfl, rfl⟩
  exact h.ends rfl hstart (by omega) hfuel

end MoveTools.Disassembler
