import MoveTools.Disassembler.Straight

namespace MoveTools.Disassembler

/-! The operands of the expressions against the values that the stack machine pops. -/

def recordAt (log : List Record) (offset : ℕ) : Option Record :=
  log.find? fun r => r.offset = offset

def fieldValue : Exp → ℕ → Option ExpLoc
  | .Unpack _ _ fields _, j => fields[j]?.map PackField.value
  | _, _ => none

section
variable (f : Function)

/-- The instruction pushes one value and no other, so that its expression is that value. An
`Unpack` is a statement: its values are those of the locals it binds. -/
def PushesOne (offset : ℕ) : Prop :=
  unpackCount f.unit (opcodeAt f offset) = none ∧
    ∃ n, arity f.unit f.locals.length f.retLen (opcodeAt f offset) = some ⟨n, 1⟩

/-- The operand is the expression of the instruction that pushed the value. -/
def Supplied (log : List Record) (v : Value) (e : ExpLoc) : Prop :=
  PushesOne f v.pusher ∧ ∃ r, recordAt log v.pusher = some r ∧ r.loc = e

/-- A store of a field: the `Unpack` binds the local, and the store takes nothing itself. -/
def Stored (log : List Record) (v : Value) (r : Record) : Prop :=
  r.operands = [.mk r.offset .Nop] ∧
    ∃ u, recordAt log v.pusher = some u ∧ fieldValue u.loc.val v.component = some r.loc

/-- The operands are the values that the instruction pops, in their order. A `Pop` has none. -/
def HasOperands (log : List Record) (opcode : Bytecode) (popped : List Value) (r : Record) :
    Prop :=
  match opcode with
  | .Pop => True
  | .StLoc _ => List.Forall₂ (Supplied f log) popped r.operands ∨
      ∃ v, popped = [v] ∧ Stored log v r
  | _ => List.Forall₂ (Supplied f log) popped r.operands

variable (popped : List (List Value))

def OperandsAt (log : List Record) (offset : ℕ) : Prop :=
  ∀ opcode vs, f.code[offset]? = some opcode → popped[offset]? = some vs →
    ∃ r, recordAt log offset = some r ∧ MadeOf opcode r.loc.val r.operands ∧
      HasOperands f log opcode vs r

/-- Every field of an `Unpack` is bound by the instruction that pops it: to its local, if that is
a store. -/
def FieldsAt (log : List Record) (offset : ℕ) : Prop :=
  ∀ opcode k, f.code[offset]? = some opcode → unpackCount f.unit opcode = some k →
    ∀ j < k, ∃ o vs u r, popped[o]? = some vs ∧ ⟨offset, j⟩ ∈ vs ∧
      recordAt log offset = some u ∧ recordAt log o = some r ∧
      fieldValue u.loc.val j = some r.loc

/-- What was built for the instructions, against what they pop. -/
structure Reconstructed (log : List Record) : Prop where
  operands : ∀ offset, OperandsAt f popped log offset
  fields : ∀ offset, FieldsAt f popped log offset

end

/-- The `k` instructions in front store values and then discard values. -/
def storesThenPops : Bool → ℕ → List Bytecode → Bool
  | _, 0, _ => true
  | discards, k + 1, .StLoc _ :: code => !discards && storesThenPops false k code
  | _, k + 1, .Pop :: code => storesThenPops true k code
  | _, _ + 1, _ => false

/-- No instruction pops more than the `c` values that were pushed one by one since the last
statement; every `Unpack` has its stores and discards right behind it. `skip` instructions are
those of an `Unpack`. -/
def orderly (f : Function) : ℕ → ℕ → List Bytecode → Bool
  | _, _, [] => true
  | skip + 1, c, _ :: code => orderly f skip c code
  | 0, c, opcode :: code =>
    if opcode = .Pop then orderly f 0 0 code
    else match unpackCount f.unit opcode, arity f.unit f.locals.length f.retLen opcode with
      | some k, _ => 1 ≤ c && storesThenPops false k code && orderly f k 0 code
      | none, some a =>
        a.pops ≤ c && orderly f 0 (if a.pushes = 1 then c - a.pops + 1 else 0) code
      | none, none => false

section
variable {f : Function} {log log' : List Record} {n o : ℕ} {r : Record}

theorem recordAt_mem (h : recordAt log o = some r) : r ∈ log ∧ r.offset = o :=
  ⟨List.mem_of_find?_eq_some h, by simpa using List.find?_some h⟩

theorem recordAt_append (more : List Record) :
    recordAt (log ++ more) o = (recordAt log o).or (recordAt more o) := List.find?_append

theorem recordAt_eq_none (h : ∀ r ∈ log, r.offset ≠ o) : recordAt log o = none := by
  apply List.find?_eq_none.mpr
  intro r hr
  simpa using h r hr

theorem Extends.recordAt_mono (h : Extends f n log log') (ho : recordAt log o = some r) :
    recordAt log' o = some r := by
  obtain ⟨more, rfl, _⟩ := h
  rw [recordAt_append, ho, Option.some_or]

/-- What is built later does not touch what was built for earlier instructions. -/
theorem Extends.recordAt_eq (h : Extends f n log log') (ho : o < n) :
    recordAt log' o = recordAt log o := by
  obtain ⟨more, rfl, hmore⟩ := h
  have hnone : recordAt more o = none :=
    recordAt_eq_none fun r hr => Nat.ne_of_gt (Nat.lt_of_lt_of_le ho (hmore r hr).1)
  rw [recordAt_append, hnone, Option.or_none]

theorem Extends.made (h : Extends f n log log') (hlog : ∀ r ∈ log, r.offset < n)
    (ho : recordAt log' o = some r) (hn : n ≤ o) : Made f r := by
  obtain ⟨more, rfl, hmore⟩ := h
  obtain ⟨hmem, rfl⟩ := recordAt_mem ho
  rcases List.mem_append.mp hmem with hmem | hmem
  · exact absurd (hlog r hmem) (Nat.not_lt_of_le hn)
  · exact (hmore r hmem).2

theorem Supplied.mono {v : Value} {e : ExpLoc} (h : Supplied f log v e)
    (hlog : Extends f n log log') : Supplied f log' v e := by
  obtain ⟨hone, r, hr, he⟩ := h
  exact ⟨hone, r, hlog.recordAt_mono hr, he⟩

theorem Stored.mono {v : Value} {s : Record} (h : Stored log v s)
    (hlog : Extends f n log log') : Stored log' v s := by
  obtain ⟨hops, u, hu, hfield⟩ := h
  exact ⟨hops, u, hlog.recordAt_mono hu, hfield⟩

theorem HasOperands.mono {opcode : Bytecode} {vs : List Value} {s : Record}
    (h : HasOperands f log opcode vs s) (hlog : Extends f n log log') :
    HasOperands f log' opcode vs s := by
  have hsupplied : List.Forall₂ (Supplied f log) vs s.operands →
      List.Forall₂ (Supplied f log') vs s.operands := List.Forall₂.imp fun _ _ hv => hv.mono hlog
  unfold HasOperands at h ⊢
  split
  · trivial
  · refine h.imp hsupplied fun ⟨v, hv, hstored⟩ => ⟨v, hv, hstored.mono hlog⟩
  · simp only at h
    exact hsupplied h

variable {popped : List (List Value)}

theorem OperandsAt.mono (h : OperandsAt f popped log o) (hlog : Extends f n log log') :
    OperandsAt f popped log' o := by
  intro opcode vs hop hvs
  obtain ⟨r, hr, hmade, hoperands⟩ := h opcode vs hop hvs
  exact ⟨r, hlog.recordAt_mono hr, hmade, hoperands.mono hlog⟩

theorem FieldsAt.mono (h : FieldsAt f popped log o) (hlog : Extends f n log log') :
    FieldsAt f popped log' o := by
  intro opcode k hop hk j hj
  obtain ⟨q, vs, u, r, hvs, hmem, hu, hr, hfield⟩ := h opcode k hop hk j hj
  exact ⟨q, vs, u, r, hvs, hmem, hlog.recordAt_mono hu, hlog.recordAt_mono hr, hfield⟩

end

section
variable (f : Function)

/-- The last `c` expressions of the list supply the `c` values on top of the stack; the expression
in front of them was built after all that is deeper in the stack was pushed. Both have their top
first. -/
inductive Matches (log : List Record) : ℕ → List Value → List ExpLoc → Prop
  | left {stack : List Value} {expressions : List ExpLoc}
      (h : ∀ e ∈ expressions.head?, ∀ v ∈ stack, PushesOne f v.pusher → v.pusher < e.index) :
      Matches log 0 stack expressions
  | supplied {c : ℕ} {stack : List Value} {expressions : List ExpLoc} {v : Value} {e : ExpLoc}
      (hv : Supplied f log v e) (h : Matches log c stack expressions) :
      Matches log (c + 1) (v :: stack) (e :: expressions)

/-- What pushes values one by one has an expression that is one, with its own index. -/
def Kept (r : Record) : Prop :=
  ∀ a, arity f.unit f.locals.length f.retLen (opcodeAt f r.offset) = some a → 0 < a.pushes →
    unpackCount f.unit (opcodeAt f r.offset) = none → r.loc.index = r.offset ∧ r.loc.val.isSolid

def Pushes (offset : ℕ) : Prop :=
  unpackCount f.unit (opcodeAt f offset) = none ∧
    ∃ a, arity f.unit f.locals.length f.retLen (opcodeAt f offset) = some a ∧ 0 < a.pushes

/-- Between two instructions, of which none so far has taken a wrong operand. -/
structure Tracks (t : Translator) (stack : List Value) (c : ℕ) : Prop where
  inStep : InStep f t
  offsets : ∀ r ∈ t.built, r.offset < t.next
  kept : ∀ r ∈ t.built, Kept f r
  pushers : ∀ v ∈ stack, v.pusher < t.next ∧ Pushes f v.pusher
  expressions : Matches f t.built c stack t.expressions.reverse

end

section
variable {f : Function} {log : List Record} {c n : ℕ} {stack : List Value}
  {expressions : List ExpLoc}

theorem Matches.mono {log' : List Record} (h : Matches f log c stack expressions)
    (hlog : Extends f n log log') : Matches f log' c stack expressions := by
  induction h with
  | left h => exact .left h
  | supplied hv _ ih => exact .supplied (hv.mono hlog) ih

theorem Matches.le (h : Matches f log c stack expressions) :
    c ≤ stack.length ∧ c ≤ expressions.length := by
  induction h with
  | left _ => exact ⟨Nat.zero_le _, Nat.zero_le _⟩
  | supplied _ _ ih => exact ⟨Nat.succ_le_succ ih.1, Nat.succ_le_succ ih.2⟩

/-- Up to `c` values can be taken. -/
theorem Matches.take (h : Matches f log c stack expressions) (hn : n ≤ c) :
    List.Forall₂ (Supplied f log) (stack.take n) (expressions.take n) ∧
      Matches f log (c - n) (stack.drop n) (expressions.drop n) := by
  induction n generalizing c stack expressions with
  | zero => exact ⟨.nil, h⟩
  | succ n ih =>
    cases h with
    | left _ => exact absurd hn (Nat.not_succ_le_zero n)
    | @supplied c _ _ v e hv h =>
      obtain ⟨htake, hdrop⟩ := ih h (Nat.le_of_succ_le_succ hn)
      refine ⟨.cons hv htake, ?_⟩
      rw [Nat.add_sub_add_right]
      exact hdrop

/-- More than `c` values cannot be taken: the expression in front of the last `c` is too late. -/
theorem Matches.not_take {log' : List Record} (h : Matches f log c stack expressions)
    (hindex : ∀ v ∈ stack, ∀ e, Supplied f log' v e → e.index = v.pusher) (hn : c < n)
    (hstack : n ≤ stack.length) (hexp : n ≤ expressions.length) :
    ¬List.Forall₂ (Supplied f log') (stack.take n) (expressions.take n) := by
  induction h generalizing n with
  | @left stack expressions h =>
    cases stack with
    | nil => exact absurd (Nat.lt_of_lt_of_le hn hstack) (Nat.lt_irrefl 0)
    | cons v stack =>
      cases expressions with
      | nil => exact absurd (Nat.lt_of_lt_of_le hn hexp) (Nat.lt_irrefl 0)
      | cons e expressions =>
        obtain ⟨n, rfl⟩ := Nat.exists_eq_succ_of_ne_zero (Nat.ne_of_gt hn)
        intro hall
        obtain ⟨hv, _⟩ := List.forall₂_cons.mp hall
        have hlt := h e rfl v List.mem_cons_self hv.1
        rw [hindex v List.mem_cons_self e hv] at hlt
        exact Nat.lt_irrefl _ hlt
  | supplied hv _ ih =>
    obtain ⟨n, rfl⟩ := Nat.exists_eq_succ_of_ne_zero (Nat.ne_of_gt (Nat.zero_lt_of_lt hn))
    intro hall
    obtain ⟨_, hall⟩ := List.forall₂_cons.mp hall
    exact ih (fun v hv => hindex v (List.mem_cons_of_mem _ hv)) (Nat.lt_of_succ_lt_succ hn)
      (Nat.le_of_succ_le_succ hstack) (Nat.le_of_succ_le_succ hexp) hall

end

section
variable {f : Function} {t t' : Translator} {stack : List Value} {c n : ℕ} {log : List Record}
  {operands left : List ExpLoc}

theorem Tracks.supplied (h : Tracks f t stack c) (hlog : Extends f t.next t.built log) {v : Value}
    (hv : v ∈ stack) {e : ExpLoc} (hs : Supplied f log v e) :
    e.index = v.pusher ∧ e.val.isSolid := by
  obtain ⟨⟨hu, pops, ha⟩, r, hr, rfl⟩ := hs
  rw [hlog.recordAt_eq (h.pushers v hv).1] at hr
  obtain ⟨hmem, hoffset⟩ := recordAt_mem hr
  rw [← hoffset] at ha hu ⊢
  exact h.kept r hmem _ ha Nat.zero_lt_one hu

theorem Tracks.not_stored (h : Tracks f t stack c) (hlog : Extends f t.next t.built log)
    {v : Value} (hv : v ∈ stack) (r : Record) : ¬Stored log v r := by
  intro ⟨_, u, hu, hfield⟩
  obtain ⟨hlt, hk, a, ha, hpos⟩ := h.pushers v hv
  rw [hlog.recordAt_eq hlt] at hu
  obtain ⟨hmem, hoffset⟩ := recordAt_mem hu
  rw [← hoffset] at ha hk
  have hsolid := (h.kept u hmem a ha hpos hk).2
  cases hval : u.loc.val
  case Unpack =>
    rw [hval] at hsolid
    cases hsolid
  all_goals
    rw [hval] at hfield
    cases hfield

/-- An operand in front of the last `c` expressions is a wrong one. -/
theorem Tracks.not_operands (h : Tracks f t stack c) (hlog : Extends f t.next t.built log)
    (hn : c < n) (hstack : n ≤ stack.length) (ht : Taken t.expressions n operands left) :
    ¬List.Forall₂ (Supplied f log) (stack.take n).reverse operands := by
  intro hall
  cases ht with
  | enough hexp hlen =>
    have hrev : t.expressions.reverse = operands.reverse ++ left.reverse := by
      rw [hexp, List.reverse_append]
    have htake : t.expressions.reverse.take n = operands.reverse := by
      rw [hrev, List.take_left' (by rw [List.length_reverse, hlen])]
    have hle : n ≤ t.expressions.reverse.length := by
      rw [hrev, List.length_append, List.length_reverse, hlen]
      exact Nat.le_add_right _ _
    apply h.expressions.not_take (fun v hv e hs => (h.supplied hlog hv hs).1) hn hstack hle
    rw [htake]
    exact List.forall₂_reverse_iff.mp (by rwa [List.reverse_reverse])
  | short _ _ hm =>
    obtain ⟨e, hmem, hnop⟩ := hm
    obtain ⟨v, hv, hs⟩ := Collect.exists_of_forall₂ hall e hmem
    have hsolid := (h.supplied hlog (List.mem_of_mem_take (List.mem_reverse.mp hv)) hs).2
    rw [hnop] at hsolid
    cases hsolid

theorem Tracks.taken (h : Tracks f t stack c) (hn : n ≤ c)
    (ht : Taken t.expressions n operands left) :
    List.Forall₂ (Supplied f t.built) (stack.take n).reverse operands ∧
      Matches f t.built (c - n) (stack.drop n) left.reverse := by
  obtain ⟨htake, hdrop⟩ := h.expressions.take hn
  cases ht with
  | enough hexp hlen =>
    have hrev : t.expressions.reverse = operands.reverse ++ left.reverse := by
      rw [hexp, List.reverse_append]
    rw [hrev, List.take_left' (by rw [List.length_reverse, hlen])] at htake
    rw [hrev, List.drop_left' (by rw [List.length_reverse, hlen])] at hdrop
    refine ⟨?_, hdrop⟩
    rw [← List.reverse_reverse operands]
    exact List.forall₂_reverse_iff.mpr htake
  | short hlt _ _ =>
    have hle := h.expressions.le.2
    rw [List.length_reverse] at hle
    omega

end

section
variable {f : Function} {t t' : Translator} {stack : List Value} {c : ℕ} {opcode : Bytecode}
  {code : List Bytecode} {b : Built}

theorem recordAt_push (h : ∀ r ∈ t.built, r.offset < t.next) (hs : SamePlace (t.advance code) t') :
    recordAt (t'.push t.next b).built t.next = some ⟨t.next, b.operands, t'.loc b.exp⟩ := by
  have hbuilt : (t'.push t.next b).built = t.built ++ [⟨t.next, b.operands, t'.loc b.exp⟩] :=
    congrArg (· ++ [(⟨t.next, b.operands, t'.loc b.exp⟩ : Record)]) hs.built
  have hnone : recordAt t.built t.next = none :=
    recordAt_eq_none fun r hr => Nat.ne_of_lt (h r hr)
  rw [hbuilt, recordAt_append, hnone, Option.none_or]
  simp [recordAt]

theorem offset_push (h : ∀ r ∈ t.built, r.offset < t.next) (hs : SamePlace (t.advance code) t') :
    ∀ r ∈ (t'.push t.next b).built, r.offset < (t'.push t.next b).next := by
  have hnext : (t'.push t.next b).next = t.next + 1 := hs.next
  intro r hr
  rw [hnext]
  rcases List.mem_append.mp hr with hr | hr
  · rw [hs.built] at hr
    exact Nat.lt_succ_of_lt (h r hr)
  · rw [List.mem_singleton.mp hr]
    exact Nat.lt_succ_self _

theorem Tracks.kept_push (h : Tracks f t stack c) (hs : SamePlace (t.advance code) t')
    (hk : Kept f ⟨t.next, b.operands, t'.loc b.exp⟩) : ∀ r ∈ (t'.push t.next b).built, Kept f r := by
  intro r hr
  rcases List.mem_append.mp hr with hr | hr
  · rw [hs.built] at hr
    exact h.kept r hr
  · rw [List.mem_singleton.mp hr]
    exact hk

/-- An expression that is no value of the stack is in front of all that comes after it. -/
theorem Tracks.statement (h : Tracks f t stack c) (hran : Ran f t (t'.push t.next b))
    (hs : SamePlace (t.advance code) t') (hk : Kept f ⟨t.next, b.operands, t'.loc b.exp⟩)
    {stack' : List Value} (hstack : ∀ v ∈ stack', v ∈ stack ∨
      v.pusher = t.next ∧ Pushes f t.next ∧ ¬PushesOne f t.next) :
    Tracks f (t'.push t.next b) stack' 0 := by
  have hnext : (t'.push t.next b).next = t.next + 1 := hs.next
  refine ⟨hran.grows.inStep, offset_push h.offsets hs, h.kept_push hs hk, fun v hv => ?_,
    .left fun e he v hv hone => ?_⟩
  · rw [hnext]
    rcases hstack v hv with hv | ⟨hv, hpushes, _⟩
    · exact ⟨Nat.lt_succ_of_lt (h.pushers v hv).1, (h.pushers v hv).2⟩
    · rw [hv]
      exact ⟨Nat.lt_succ_self _, hpushes⟩
  · change e ∈ (t'.expressions ++ [t'.loc b.exp]).reverse.head? at he
    rw [List.reverse_append] at he
    cases he
    change v.pusher < t'.opcodeOffset
    rw [hs.opcodeOffset]
    rcases hstack v hv with hv | ⟨hv, _, hnot⟩
    · exact (h.pushers v hv).1
    · exact absurd (hv ▸ hone) hnot

variable {a : Arity}

/-- An instruction that finds its operands among the last `c` expressions. -/
theorem Tracks.step (h : Tracks f t stack c) (hr : t.rest = opcode :: code)
    (ha : arity f.unit f.locals.length f.retLen opcode = some a)
    (hu : unpackCount f.unit opcode = none) (hb : Builds opcode a (t.advance code) b t')
    (hran : Ran f t (t'.push t.next b)) (hn : a.pops ≤ c) :
    Tracks f (t'.push t.next b) (pushed t.next a.pushes ++ stack.drop a.pops)
        (if a.pushes = 1 then c - a.pops + 1 else 0) ∧
      List.Forall₂ (Supplied f (t'.push t.next b).built) (stack.take a.pops).reverse b.operands := by
  have hop := (h.inStep.cons hr).2.1
  obtain ⟨hsupplied, hleft⟩ := h.taken hn hb.taken
  have hoperands := hsupplied.imp fun _ _ hv => hv.mono hran.grows.built
  have hsolid : ∀ e ∈ b.operands, e.val.isSolid := by
    intro e he
    obtain ⟨v, hv, hs⟩ := Collect.exists_of_forall₂ hoperands e he
    exact (h.supplied hran.grows.built (List.mem_of_mem_take (List.mem_reverse.mp hv)) hs).2
  have hkept : Kept f ⟨t.next, b.operands, t'.loc b.exp⟩ := by
    intro a' ha' hpos _
    rw [hop, ha] at ha'
    cases ha'
    exact ⟨hb.place.opcodeOffset, hb.solid hpos hsolid⟩
  refine ⟨?_, hoperands⟩
  -- one value is the last expression; any other number makes a statement
  by_cases hone : a.pushes = 1
  · have hpushes : PushesOne f t.next := by
      refine ⟨hop.symm ▸ hu, a.pops, ?_⟩
      rw [hop, ha, ← hone]
    have hnext : (t'.push t.next b).next = t.next + 1 := hb.place.next
    rw [if_pos hone, hone]
    refine ⟨hran.grows.inStep, offset_push h.offsets hb.place, h.kept_push hb.place hkept,
      fun v hv => ?_, ?_⟩
    · rw [hnext]
      rcases List.mem_cons.mp hv with rfl | hv
      · exact ⟨Nat.lt_succ_self _, hpushes.1, _, hpushes.2.choose_spec, Nat.zero_lt_one⟩
      · have hold := h.pushers v (List.mem_of_mem_drop hv)
        exact ⟨Nat.lt_succ_of_lt hold.1, hold.2⟩
    · change Matches f _ _ _ (t'.expressions ++ [t'.loc b.exp]).reverse
      rw [List.reverse_append]
      exact .supplied ⟨hpushes, _, recordAt_push h.offsets hb.place, rfl⟩ (hleft.mono hran.grows.built)
  · rw [if_neg hone]
    apply h.statement hran hb.place hkept
    intro v hv
    rcases List.mem_append.mp hv with hv | hv
    · obtain ⟨hpusher, hlt⟩ := mem_pushed.mp hv
      have hnot : ¬PushesOne f t.next := by
        intro ⟨_, n, hn⟩
        rw [hop, ha] at hn
        exact hone (congrArg Arity.pushes (Option.some.inj hn))
      exact .inr ⟨hpusher, ⟨hop.symm ▸ hu, a, hop.symm ▸ ha, Nat.zero_lt_of_lt hlt⟩, hnot⟩
    · exact .inl (List.mem_of_mem_drop hv)

end

end MoveTools.Disassembler
