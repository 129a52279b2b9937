import MoveTools.Disassembler.Placed

namespace MoveTools.Disassembler

/-! Statements without branches, and what their translation is, whatever is around them. -/

/-- Of each expression on a list, whether it is a binding. -/
def kinds (es : List ExpLoc) : List Bool := es.map fun e => e.val.isLet

/-- The kinds on a list behind an instruction. After a binding a store takes nothing. -/
def Function.leftBy (f : Function) (opcode : Bytecode) (own : List Bool) : List Bool :=
  match opcode with
  | .StLoc _ => if own.getLast? = some true then own ++ [true] else own.dropLast ++ [true]
  | .FreezeRef => own
  | _ => own.take (own.length - f.operands opcode) ++ [false]

/-- An instruction that is no branch and pops only what is there. -/
def Function.Pops (f : Function) (own : List Bool) (opcode : Bytecode) : Prop :=
  f.InBounds opcode ∧ opcode.offset = none ∧ f.operands opcode ≤ own.length

/-- Straight-line code that pops only expressions it has pushed itself, which leaves expressions of
the given kinds. Each `Unpack` is followed by the stores of its fields or by `Pop`s. -/
inductive Leaves (f : Function) : List Bool → List Bytecode → List Bool → Prop
  | done {own : List Bool} : Leaves f own [] own
  | next {own left : List Bool} {opcode : Bytecode} {code : List Bytecode}
      (hop : f.Pops own opcode) (hunpack : opcode.isUnpack = false)
      (hrest : Leaves f (f.leftBy opcode own) code left) : Leaves f own (opcode :: code) left
  | unpack {own left : List Bool} {opcode : Bytecode} {stores code : List Bytecode}
      (hop : f.Pops own opcode) (hunpack : opcode.isUnpack)
      (hlen : stores.length = f.blockSize opcode)
      (hstores : ∀ store ∈ stores, f.InBounds store ∧ (store.isStore ∨ store = .Pop))
      (hrest : Leaves f (f.leftBy opcode own) code left) :
      Leaves f own (opcode :: (stores ++ code)) left

/-- A translator of a piece of code alone, at its place. -/
def pieceTranslator (offset : ℕ) (code : List Bytecode) : Translator where
  expressions := []
  rest := code
  position := match offset with
    | 0 => none
    | index + 1 => some index
  endOffset := offset + code.length
  used := []
  built := []

/-- The translation of a piece of code taken on its own: there is no other code in the body. -/
def Function.translation (f : Function) (offset : ℕ) (code : List Bytecode) : List ExpLoc :=
  match translate (f.on (List.replicate offset .Nop ++ code)) (code.length + 1)
      (pieceTranslator offset code) with
  | .ok t => t.expressions
  | .error _ => []

variable {f : Function} {own left : List Bool} {opcode : Bytecode} {code : List Bytecode}
  {es es' : List ExpLoc} {offset : ℕ}

@[simp] theorem kinds_append (es es' : List ExpLoc) : kinds (es ++ es') = kinds es ++ kinds es' :=
  List.map_append

@[simp] theorem kinds_length (es : List ExpLoc) : (kinds es).length = es.length := List.length_map _

@[simp] theorem kinds_cons (e : ExpLoc) (es : List ExpLoc) :
    kinds (e :: es) = e.val.isLet :: kinds es := rfl

@[simp] theorem val_mk (index : ℕ) (e : Exp) : (ExpLoc.mk index e).val = e := rfl

@[simp] theorem isLet_let (l : Local) (e : ExpLoc) : (Exp.Let l e).isLet = true := rfl

theorem leftBy_store (i : ℕ) (own : List Bool) : f.leftBy (.StLoc i) own =
    if own.getLast? = some true then own ++ [true] else own.dropLast ++ [true] := rfl

theorem pieceTranslator_stands (offset : ℕ) (code : List Bytecode) :
    Stands (pieceTranslator offset code) offset code [] (offset + code.length) := by
  cases offset <;> exact ⟨rfl, rfl, rfl, rfl⟩

/-- In every body the piece is translated as it is on its own. -/
theorem Turns.translation (h : Turns f offset code [] es) : f.translation offset code = es := by
  have hbody : (List.replicate offset Bytecode.Nop ++ code).drop offset = code :=
    List.drop_left' List.length_replicate
  obtain ⟨t, hrun, hexp⟩ := h.ends hbody (pieceTranslator_stands offset code) (by omega)
    (Nat.lt_succ_self code.length)
  rw [Function.translation, hrun]
  exact hexp

theorem storeOperand_append (h : es ≠ []) (below : List ExpLoc) :
    storeOperand offset (below ++ es) =
      ((storeOperand offset es).1, below ++ (storeOperand offset es).2) := by
  obtain ⟨own, e, rfl⟩ := (List.eq_nil_or_concat es).resolve_left h
  rw [List.concat_eq_append, ← List.append_assoc]
  cases he : e.val.isLet with
  | true =>
    rw [storeOperand_nothing (by simpa using he), storeOperand_nothing (by simpa using he)]
    simp
  | false => rw [storeOperand_last he, storeOperand_last he]

theorem kinds_store (h : es ≠ []) (l : Local) (i offset : ℕ) :
    kinds ((storeOperand offset es).2 ++ [.mk offset (.Let l (storeOperand offset es).1)]) =
      f.leftBy (.StLoc i) (kinds es) := by
  obtain ⟨own, e, rfl⟩ := (List.eq_nil_or_concat es).resolve_left h
  rw [List.concat_eq_append]
  cases he : e.val.isLet with
  | true =>
    rw [storeOperand_nothing (by simpa using he), leftBy_store]
    simp [he, kinds]
  | false =>
    rw [storeOperand_last he, leftBy_store]
    simp [he, kinds]

theorem freezeRef_makes (f : Function) :
    Makes f .FreezeRef fun operands => (operands.headD (.mk 0 .Nop)).val :=
  popUnary_makes ExpLoc.val rfl fun _ _ _ => rfl

theorem exists_of_isStore (h : opcode.isStore) : ∃ i, opcode = .StLoc i := by
  cases opcode
  case StLoc i => exact ⟨i, rfl⟩
  all_goals cases h

theorem single_turns (hop : f.Pops (kinds es) opcode) (hunpack : opcode.isUnpack = false)
    (offset : ℕ) : ∃ es', kinds es' = f.leftBy opcode (kinds es) ∧
      ∀ below, Turns f offset [opcode] (below ++ es) (below ++ es') := by
  obtain ⟨hbounds, hbranch, hlen⟩ := hop
  rw [kinds_length] at hlen
  -- a store, a `FreezeRef`, and all that make one expression of their operands
  by_cases hstore : opcode.isStore
  · obtain ⟨i, rfl⟩ := exists_of_isStore hstore
    have hi : i < f.locals.length := hbounds
    have hne : es ≠ [] := by
      rintro rfl
      simp [Function.operands, arity, ifLocal, hi] at hlen
    obtain ⟨l, hturns⟩ := store_turns hi
    refine ⟨_, kinds_store hne l i offset, fun below => ?_⟩
    have h := hturns offset (below ++ es)
    rw [storeOperand_append hne, List.append_assoc] at h
    exact h
  by_cases hfreeze : opcode = .FreezeRef
  · subst hfreeze
    obtain ⟨own, e, rfl⟩ := (List.eq_nil_or_concat es).resolve_left (by
      rintro rfl
      cases hlen)
    refine ⟨own ++ [.mk offset e.val], ?_, fun below => ?_⟩
    · simp [kinds, Function.leftBy]
    · have h : Turns f offset [.FreezeRef] ((below ++ own) ++ [e])
          ((below ++ own) ++ [.mk offset e.val]) := (freezeRef_makes f).turns rfl offset _
      rw [List.append_assoc, List.append_assoc] at h
      rw [List.concat_eq_append]
      exact h
  · obtain ⟨make, hmake⟩ :=
      nextExp_makes hbounds hbranch hunpack (Bool.not_eq_true _ ▸ hstore) hfreeze
    have hdrop : (es.drop (es.length - f.operands opcode)).length = f.operands opcode := by
      rw [List.length_drop]
      omega
    refine ⟨es.take (es.length - f.operands opcode) ++
      [.mk offset (make (es.drop (es.length - f.operands opcode)))], ?_, fun below => ?_⟩
    · have hleft : f.leftBy opcode (kinds es) =
          (kinds es).take ((kinds es).length - f.operands opcode) ++ [false] := by
        cases opcode <;> first | rfl | exact absurd rfl hstore | exact absurd rfl hfreeze
      have htake : ∀ n, kinds (es.take n) = (kinds es).take n := fun n => List.map_take
      have hvalue : ∀ operands, kinds [.mk offset (make operands)] = [false] := fun operands =>
        congrArg (fun b => [b]) (hmake.notLet operands)
      rw [hleft, kinds_append, htake, hvalue, kinds_length]
    · have h := hmake.makes.turns hdrop offset
        (below ++ es.take (es.length - f.operands opcode))
      rw [List.append_assoc, List.append_assoc, List.take_append_drop] at h
      exact h

theorem storeOperand_length (offset : ℕ) (es : List ExpLoc) :
    (storeOperand offset es).2.length ≤ es.length := by
  unfold storeOperand
  split
  · split
    · exact Nat.le_refl _
    · rw [List.length_dropLast]
      exact Nat.sub_le _ _
  · exact Nat.le_refl _

theorem field_turns (hbounds : f.InBounds opcode) (hstore : opcode.isStore ∨ opcode = .Pop)
    (offset : ℕ) (es : List ExpLoc) : ∃ es', es'.length ≤ es.length + 1 ∧
      Turns f offset [opcode] es es' := by
  rcases hstore with hstore | rfl
  · obtain ⟨i, rfl⟩ := exists_of_isStore hstore
    obtain ⟨l, hturns⟩ := store_turns hbounds
    have hlen := storeOperand_length offset es
    refine ⟨_, ?_, hturns offset es⟩
    rw [List.length_append, List.length_singleton]
    omega
  · refine ⟨es ++ [.mk offset .Nop], ?_, Turns.single fun body t _ _ hexp => ?_⟩
    · rw [List.length_append, List.length_singleton]
    · exact ⟨⟨[], .Nop⟩, t, fun _ => rfl, .refl t, by rw [hexp]⟩

theorem stores_turns {stores : List Bytecode}
    (h : ∀ store ∈ stores, f.InBounds store ∧ (store.isStore ∨ store = .Pop)) (offset : ℕ)
    (es : List ExpLoc) : ∃ es', es'.length ≤ es.length + stores.length ∧
      Turns f offset stores es es' := by
  induction stores generalizing offset es with
  | nil => exact ⟨es, Nat.le_refl _, .nil f offset es⟩
  | cons store stores ih =>
    obtain ⟨⟨hbounds, hstore⟩, hrest⟩ := List.forall_mem_cons.mp h
    obtain ⟨es₁, hlen, hfirst⟩ := field_turns hbounds hstore offset es
    obtain ⟨es₂, hlen', hturns⟩ := ih hrest (offset + 1) es₁
    have hall : Turns f offset ([store] ++ stores) es es₂ := hfirst.append hturns
    refine ⟨es₂, ?_, hall⟩
    rw [List.length_cons]
    omega

theorem Leaves.turns (h : Leaves f own code left) (hown : kinds es = own) (offset : ℕ) :
    ∃ es', kinds es' = left ∧ ∀ below, Turns f offset code (below ++ es) (below ++ es') := by
  induction h generalizing es offset with
  | done => exact ⟨es, hown, fun below => .nil f offset _⟩
  | @next own left opcode code hop hunpack _ ih =>
    subst hown
    obtain ⟨es₁, hkinds, hfirst⟩ := single_turns hop hunpack offset
    obtain ⟨es₂, hleft, hrest⟩ := ih hkinds (offset + 1)
    refine ⟨es₂, hleft, fun below => ?_⟩
    have hall : Turns f offset ([opcode] ++ code) (below ++ es) (below ++ es₂) :=
      (hfirst below).append (hrest below)
    exact hall
  | @unpack own left opcode stores code hop hunpack hlen hstores _ ih =>
    subst hown
    obtain ⟨hbounds, _, hpops⟩ := hop
    have hone : f.operands opcode = 1 := by
      cases opcode <;> first | rfl | cases hunpack
    rw [kinds_length, hone] at hpops
    obtain ⟨own, e, rfl⟩ := (List.eq_nil_or_concat es).resolve_left (by
      rintro rfl
      cases hpops)
    obtain ⟨block, hle, hblock⟩ := stores_turns hstores (offset + 1) []
    rw [List.length_nil, Nat.zero_add] at hle
    obtain ⟨x, hx, hfirst⟩ := unpack_turns hbounds hunpack hlen hblock hle e
    have hkinds : kinds (own ++ [.mk (offset + stores.length) x]) =
        f.leftBy opcode (kinds (own.concat e)) := by
      have hleft : ∀ kinds, f.leftBy opcode kinds = kinds.take (kinds.length - 1) ++ [false] := by
        intro kinds
        cases opcode <;> first | rfl | cases hunpack
      simp [hleft, hx, kinds]
    obtain ⟨es₂, hleft, hrest⟩ := ih hkinds (offset + (1 + stores.length))
    refine ⟨es₂, hleft, fun below => ?_⟩
    have hunpacked := hfirst (below ++ own)
    rw [List.append_assoc, List.append_assoc] at hunpacked
    have hall : Turns f offset ((opcode :: stores) ++ code) (below ++ (own ++ [e])) (below ++ es₂) :=
      hunpacked.append (by rw [List.length_cons, Nat.add_comm stores.length]; exact hrest below)
    rw [List.concat_eq_append]
    exact hall

end MoveTools.Disassembler
