import MoveTools.Disassembler.Conditionals
import MoveTools.Disassembler.Preservation

namespace MoveTools.Disassembler

/-! Loops that are laid out as a compiler does it: the condition, the two jumps, the body, and the
jump back to the condition. -/

variable {f : Function} {t t' : Translator} {offset stop start : ℕ} {opcode : Bytecode}
  {body code after : List Bytecode} {es below : List ExpLoc} {e : ExpLoc}
  {translateBlock : ℕ → Translator → BlockStep}

/-- The body of a loop ends with a jump to the first instruction of the condition. -/
theorem brTrueBranch_while {trueOffset falseOffset index : ℕ}
    (htrue : ¬trueOffset < t.opcodeOffset) (hle : trueOffset ≤ falseOffset)
    (hblock : translateBlock (falseOffset - trueOffset) t = .ok (es ++ [.mk index .Continue], t'))
    (hbranch : opcodeAt f t'.opcodeOffset = .Branch start) (hlast : t'.expressions.getLast? = some e)
    (hstart : e.range.1 = start) :
    brTrueBranch f translateBlock trueOffset falseOffset t =
      .ok (popUnary (fun c => .While c (.mk es true)) t') := by
  have hcontinue : (es ++ [ExpLoc.mk index .Continue]).getLast? = some (.mk index .Continue) :=
    List.getLast?_concat
  have hlast : t'.lastExp = some e := hlast
  have hoffset : (Bytecode.Branch start).offset = some start := rfl
  simp only [brTrueBranch, if_neg htrue, usub, if_pos hle, hblock, bind, Except.bind, hcontinue,
    hbranch, hoffset, hlast, if_pos hstart, List.dropLast_concat]
  rfl

theorem continue_turns (hback : start ≤ offset) (es : List ExpLoc) :
    Turns f offset [.Branch start] es (es ++ [.mk offset .Continue]) := by
  apply Turns.single
  intro body t _ hoffset hexp
  have hcontinue : ∀ translateBlock, nextExp (f.on body) translateBlock (.Branch start) t =
      .ok (⟨[], .Continue⟩, t) := by
    intro translateBlock
    have hlt : ¬start > t.opcodeOffset := by
      rw [hoffset]
      omega
    rw [nextExp, br, if_neg hlt]
  exact ⟨_, t, hcontinue, .refl t, by rw [hexp]⟩

theorem while_turns (h : Turns f (offset + 2) code [] es) (hstart : e.range.1 = start)
    (hback : start ≤ offset) (hstop : stop = offset + 2 + code.length + 1) (below : List ExpLoc) :
    Turns f offset (.BrTrue (offset + 2) :: .Branch stop :: (code ++ [.Branch start]))
      (below ++ [e]) (below ++ [.mk (stop - 1) (.While e (.mk es true))]) := by
  -- the jump back at the end of the body becomes a `Continue`
  have hjump : Turns f (offset + 2) (code ++ [.Branch start]) []
      (es ++ [.mk (offset + 2 + code.length) .Continue]) :=
    h.append (continue_turns (by omega) es)
  have hlast : stop - 1 = offset + (Bytecode.Branch stop :: (code ++ [.Branch start])).length := by
    rw [List.length_cons, List.length_append, List.length_singleton]
    omega
  rw [hlast]
  apply turns_of_popUnary
  intro body t after stop' hbody ht
  rw [List.cons_append] at hbody ht
  have hbody₁ : body.drop (offset + 2) = (code ++ [.Branch start]) ++ after := by
    rw [← List.tail_drop, hbody, List.tail_cons]
  have ht₁ := ht.advance
  obtain ⟨t', hblock, ht'⟩ := hjump.block (Nat.succ_pos _) hbody₁ ht₁
  rw [List.length_append, List.length_singleton] at hblock ht'
  have hforward : ¬offset + 2 < (t.advance (code ++ [.Branch start] ++ after)).opcodeOffset := by
    rw [ht₁.opcodeOffset]
    omega
  have hat : opcodeAt (f.on body) t'.opcodeOffset = .Branch start := by
    have hplace : t'.opcodeOffset = offset + 2 + code.length := by
      rw [ht'.opcodeOffset]
      omega
    rw [List.append_assoc, List.singleton_append] at hbody₁
    rw [hplace]
    exact opcodeAt_on hbody₁
  refine ⟨t', fun fuel hfuel => ?_, ht'.at (by
    rw [List.length_cons, List.length_append, List.length_singleton]
    omega)⟩
  rw [nextExp_brTrue hbody ht (Nat.succ_pos _)]
  have hsize : stop - (offset + 2) = code.length + 1 := by omega
  have hlen : (code ++ [Bytecode.Branch start] ++ after).length < fuel := by
    rw [ht.rest, List.length_cons] at hfuel
    omega
  have hinner := hblock fuel (by rw [ht₁.rest]; exact hlen)
  rw [← hsize] at hinner
  apply brTrueBranch_while hforward (by omega) hinner hat _ hstart
  rw [ht'.expressions, List.getLast?_concat]

theorem range_le_index (e : ExpLoc) : e.range.1 ≤ e.index ∧ e.index ≤ e.range.2 := by
  obtain ⟨index, val⟩ := e
  rw [ExpLoc.range]
  split
  · exact ⟨Nat.min_le_left _ _, Nat.le_max_left _ _⟩
  · exact ⟨Nat.le_refl _, Nat.le_refl _⟩

theorem basket_range (e : ExpLoc) : (basket e).range = e.range := by
  unfold basket
  split
  · obtain ⟨hfirst, hlast⟩ := range_le_index e
    rw [ExpLoc.range, Exp.sourceRange]
    exact Prod.ext (Nat.min_eq_right hfirst) (Nat.max_eq_right hlast)
  · rfl

theorem findFieldRange_eq {names : List String} {operands : List ExpLoc}
    (h : operands.length = names.length) :
    findFieldRange (List.zipWith PackField.mk names operands) = findRange operands := by
  induction names generalizing operands with
  | nil =>
    rw [List.length_eq_zero_iff.mp h]
    rfl
  | cons name names ih =>
    obtain ⟨e, es, rfl⟩ := List.exists_cons_of_length_eq_add_one h
    rw [List.zipWith_cons_cons, findFieldRange, findRange, ih (Nat.succ.inj h)]

theorem sourceRange_exp {head : Head} {operands : List ExpLoc} (h : head.Fits operands.length) :
    (head.exp operands).sourceRange = findRange operands := by
  cases head
  case Abort | Cast | Not | Let | FieldRef | Deref =>
    obtain ⟨e, rfl⟩ := List.length_eq_one_iff.mp h
    rfl
  case BinaryOp =>
    obtain ⟨e, e', rfl⟩ := List.length_eq_two.mp h
    change joinRange (some (basket e).range) (some (basket e').range) = _
    rw [basket_range, basket_range]
    rfl
  case WriteRef =>
    obtain ⟨e, e', rfl⟩ := List.length_eq_two.mp h
    rfl
  case Ld | Local | Ref =>
    rw [List.length_eq_zero_iff.mp h]
    rfl
  case Pack => exact findFieldRange_eq h
  case FnCall | Ret => rfl
  case Unpack => exact h.elim

def firstOf (index : ℕ) (r : Option (ℕ × ℕ)) : ℕ := (r.map fun r => min index r.1).getD index

theorem range_first (index : ℕ) (e : Exp) :
    (ExpLoc.mk index e).range.1 = firstOf index e.sourceRange := by
  rw [ExpLoc.range]
  split
  case h_1 hsome =>
    rw [hsome]
    rfl
  case h_2 hnone =>
    rw [hnone]
    rfl

theorem firstOf_join (index : ℕ) (p : ℕ × ℕ) (r : Option (ℕ × ℕ)) :
    firstOf index (joinRange (some p) r) = min p.1 (firstOf index r) := by
  cases r with
  | none =>
    change min index p.1 = min p.1 index
    exact Nat.min_comm _ _
  | some r =>
    change min index (min p.1 r.1) = min p.1 (min index r.1)
    exact Nat.min_left_comm _ _ _

theorem le_firstOf {index : ℕ} {operands : List ExpLoc} (hindex : start ≤ index)
    (h : ∀ e ∈ operands, start ≤ e.range.1) : start ≤ firstOf index (findRange operands) := by
  induction operands with
  | nil => exact hindex
  | cons e es ih =>
    obtain ⟨he, hes⟩ := List.forall_mem_cons.mp h
    rw [findRange, firstOf_join]
    exact Nat.le_min.mpr ⟨he, ih hes⟩

/-- Every instruction pushes one value. -/
inductive Computes (f : Function) : ℕ → List Bytecode → ℕ → Prop
  | done {c : ℕ} : Computes f c [] c
  | freeze {c c' : ℕ} {code : List Bytecode} (hrest : Computes f (c + 1) code c') :
      Computes f (c + 1) (.FreezeRef :: code) c'
  | value {c n c' : ℕ} {opcode : Bytecode} {head : Head} {code : List Bytecode}
      (hhead : f.head opcode = some head)
      (harity : arity f.unit f.locals.length f.retLen opcode = some ⟨n, 1⟩)
      (hunpack : opcode.isUnpack = false) (hrest : Computes f (c + 1) code c') :
      Computes f (c + n) (opcode :: code) c'

theorem Computes.settles {c c' m : ℕ} (h : Computes f c code c') : Settles f c m code c' m := by
  induction h with
  | done => exact .done
  | freeze _ ih => exact .freeze ih
  | value hhead harity hunpack _ ih => exact .value hhead harity hunpack ih

/-- The expressions on the list, from `start` on. A single expression has operands, or was just
pushed. -/
structure Spans (start offset : ℕ) (pending : List ExpLoc) : Prop where
  first : ∀ e ∈ pending.head?, e.range.1 = start
  later : ∀ e ∈ pending, start ≤ e.range.1
  start_le : start ≤ offset
  empty : pending = [] → offset = start
  alone : ∀ e, pending = [e] → offset = start + 1 ∨
    ∀ index, start ≤ index → (ExpLoc.mk index e.val).range.1 = start

theorem Spans.nothing (offset : ℕ) : Spans offset offset [] where
  first _ he := absurd he (Option.not_mem_none _)
  later _ he := absurd he List.not_mem_nil
  start_le := Nat.le_refl _
  empty _ := rfl
  alone _ he := absurd he.symm (List.cons_ne_nil _ _)

theorem start_le_range {e : ExpLoc} {index : ℕ} (hindex : start ≤ index) (h : start ≤ e.range.1) :
    start ≤ (ExpLoc.mk index e.val).range.1 := by
  obtain ⟨old, val⟩ := e
  rw [range_first] at h ⊢
  show start ≤ firstOf index val.sourceRange
  cases hrange : val.sourceRange with
  | none => exact hindex
  | some r =>
    rw [hrange] at h
    exact Nat.le_min.mpr ⟨hindex, h.trans (Nat.min_le_right _ _)⟩

theorem Spans.value {keep operands : List ExpLoc} {head : Head}
    (h : Spans start offset (keep ++ operands)) (hfits : head.Fits operands.length) :
    Spans start (offset + 1) (keep ++ [.mk offset (head.exp operands)]) := by
  obtain ⟨hkeep, hoperands⟩ := List.forall_mem_append.mp h.later
  have hrange : ∀ index, (ExpLoc.mk index (head.exp operands)).range.1 =
      firstOf index (findRange operands) := by
    intro index
    rw [range_first, sourceRange_exp hfits]
  have hle : ∀ index, start ≤ index → start ≤ (ExpLoc.mk index (head.exp operands)).range.1 := by
    intro index hindex
    rw [hrange]
    exact le_firstOf hindex hoperands
  -- without operands a value begins where it stands, else where its first operand begins
  have hsome : keep = [] → operands ≠ [] → ∀ index, start ≤ index →
      (ExpLoc.mk index (head.exp operands)).range.1 = start := by
    rintro rfl hne index hindex
    obtain ⟨e, es, rfl⟩ := List.exists_cons_of_ne_nil hne
    refine Nat.le_antisymm ?_ (hle index hindex)
    rw [hrange, findRange, firstOf_join, h.first e rfl]
    exact Nat.min_le_left _ _
  refine ⟨fun e he => ?_, ?_, Nat.le_succ_of_le h.start_le, fun hnil => by simp at hnil,
    fun e he => ?_⟩
  · cases keep with
    | cons e' keep => exact h.first e he
    | nil =>
      cases he
      by_cases hnil : operands = []
      · subst hnil
        rw [hrange]
        exact h.empty rfl
      · exact hsome rfl hnil offset h.start_le
  · refine List.forall_mem_append.mpr ⟨hkeep, fun e he => ?_⟩
    rw [List.mem_singleton.mp he]
    exact hle offset h.start_le
  · cases keep with
    | cons e' keep => simp at he
    | nil =>
      cases he
      by_cases hnil : operands = []
      · subst hnil
        exact .inl (congrArg (· + 1) (h.empty rfl))
      · exact .inr (hsome rfl hnil)

/-- A frozen value says where it begins by its operands, or by what is below it. -/
theorem Spans.freeze {keep : List ExpLoc} {e : ExpLoc} (h : Spans start offset (keep ++ [e]))
    (hfirst : offset ≠ start + 1) : Spans start (offset + 1) (keep ++ [.mk offset e.val]) := by
  obtain ⟨hkeep, he⟩ := List.forall_mem_append.mp h.later
  have hlast := start_le_range h.start_le (he e (List.mem_singleton_self e))
  have hlater : ∀ e' ∈ keep ++ [.mk offset e.val], start ≤ e'.range.1 := by
    refine List.forall_mem_append.mpr ⟨hkeep, fun e' hmem => ?_⟩
    rw [List.mem_singleton.mp hmem]
    exact hlast
  refine ⟨fun e' he' => ?_, hlater, Nat.le_succ_of_le h.start_le, fun hnil => by simp at hnil,
    fun e' he' => ?_⟩
  · cases keep with
    | cons e₀ keep => exact h.first e' he'
    | nil =>
      cases he'
      exact (h.alone e rfl).resolve_left hfirst offset h.start_le
  · cases keep with
    | cons e₀ keep => simp at he'
    | nil =>
      cases he'
      exact .inr ((h.alone e rfl).resolve_left hfirst)

/-- A value that is frozen right after it was pushed first does not say where it begins. -/
theorem Computes.turns {c c' : ℕ} {pending : List ExpLoc} (h : Computes f c code c')
    (hlen : pending.length = c) (hpending : ∀ e ∈ pending, Pending f e) (offset : ℕ) :
    ∃ left, left.length = c' ∧ (∀ below, Turns f offset code (below ++ pending) (below ++ left)) ∧
      -- only a value frozen as the second instruction no longer begins at the start
      ∀ start, (∀ k, offset + k = start + 1 → code[k]? ≠ some .FreezeRef) →
        Spans start offset pending → Spans start (offset + code.length) left := by
  induction h generalizing pending offset with
  | done => exact ⟨pending, hlen, fun below => .nil f offset _, fun _ _ hspans => hspans⟩
  | freeze _ ih =>
    obtain ⟨keep, operands, rfl, hkeep, hone⟩ := split_pending hlen
    obtain ⟨e, rfl⟩ := List.length_eq_one_iff.mp hone
    obtain ⟨hkept, hlast⟩ := List.forall_mem_append.mp hpending
    have he := hlast e (List.mem_singleton_self e)
    obtain ⟨left, hleft, hturns, hspans⟩ := ih (length_concat hkeep (.mk offset e.val))
      (List.forall_mem_append.mpr ⟨hkept, fun _ hmem =>
        List.mem_singleton.mp hmem ▸ ⟨he.notLet, he.single⟩⟩) (offset + 1)
    refine ⟨left, hleft, fun below => ?_, fun start hsecond hspan => ?_⟩
    · have hfirst := (does_freeze he offset).turns (below ++ keep)
      rw [List.append_assoc, List.append_assoc] at hfirst
      exact hfirst.append (hturns below)
    · have hlater := hspans start (fun k hk => hsecond (k + 1) (by omega))
        (hspan.freeze fun hoffset => hsecond 0 hoffset rfl)
      rwa [Nat.add_right_comm] at hlater
  | @value c n c' opcode head code hhead harity hunpack _ ih =>
    obtain ⟨keep, operands, rfl, hkeep, hn⟩ := split_pending hlen
    have hstore := notStore_of_value harity
    have hmake := head_makes hhead harity hstore hunpack
    have he : Pending f (.mk offset (head.exp operands)) :=
      pending_of_head hhead (hn ▸ harity) hunpack (hmake.notLet operands) offset
    obtain ⟨left, hleft, hturns, hspans⟩ := ih
      (length_concat hkeep (.mk offset (head.exp operands)))
      (List.forall_mem_append.mpr ⟨(List.forall_mem_append.mp hpending).1, fun _ hmem =>
        List.mem_singleton.mp hmem ▸ he⟩) (offset + 1)
    refine ⟨left, hleft, fun below => ?_, fun start hsecond hspan => ?_⟩
    · have hfirst := (does_head hhead harity hunpack hstore hn offset).turns (below ++ keep)
      rw [List.append_assoc, List.append_assoc] at hfirst
      exact hfirst.append (hturns below)
    · have hlater := hspans start (fun k hk => hsecond (k + 1) (by omega))
        (hspan.value (hn ▸ (head_arity hhead harity hunpack).1))
      rwa [Nat.add_right_comm] at hlater

theorem Computes.condition (h : Computes f 0 code 1) (offset : ℕ) :
    f.translation offset code = [f.condition offset code] ∧
      (∀ below, Turns f offset code below (below ++ [f.condition offset code])) ∧
        (code[1]? ≠ some .FreezeRef → (f.condition offset code).range.1 = offset) := by
  obtain ⟨left, hleft, hturns, hspans⟩ := h.turns List.length_nil (nothing_pending f) offset
  obtain ⟨e, rfl⟩ := List.length_eq_one_iff.mp hleft
  have halone : f.translation offset code = [e] := Turns.translation (hturns [])
  have hcondition : f.condition offset code = e := by
    rw [Function.condition, halone]
    rfl
  rw [hcondition]
  refine ⟨halone, fun below => by simpa using hturns below, fun hfreeze => ?_⟩
  have hsecond : ∀ k, offset + k = offset + 1 → code[k]? ≠ some .FreezeRef := by
    intro k hk
    rwa [Nat.add_left_cancel hk]
  exact (hspans offset hsecond (.nothing offset)).first e rfl

end MoveTools.Disassembler
