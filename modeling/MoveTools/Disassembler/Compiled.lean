import MoveTools.Disassembler.Loops

namespace MoveTools.Disassembler

open Attempt Interpretation Simulation

/-! Bodies with conditionals and loops, laid out as a compiler does it. -/

/-- Statements without a branch. -/
structure Straight (f : Function) where
  code : List Bytecode
  settles : Settles f 0 0 code 0 0

/-- Orderly code that leaves nothing on the stack. -/
def Straight.ofOrderly {f : Function} {popped : List (List Value)} (code : List Bytecode)
    (hliteral : ∀ index, .LdConst index ∈ code → (f.literal index).isSome)
    (hbalanced : takes f.unit f.locals.length f.retLen 0 code [] = some popped)
    (horderly : orderly f 0 0 code = true) : Straight f :=
  ⟨code, settles_of_orderly hliteral hbalanced horderly (Nat.le_refl 0)⟩

structure Test (f : Function) where
  code : List Bytecode
  computes : Computes f 0 code 1

/-- How high the stack is behind code that pushes one value with each instruction. -/
def heightAfter (f : Function) : ℕ → List Bytecode → Option ℕ
  | c, [] => some c
  | c, opcode :: code => do
    let a ← arity f.unit f.locals.length f.retLen opcode
    if a.pops ≤ c ∧ a.pushes = 1 ∧ opcode.isUnpack = false then heightAfter f (c - a.pops + 1) code
    else none

theorem computes_of_height {f : Function} {c c' : ℕ} {code : List Bytecode}
    (hliteral : ∀ index, .LdConst index ∈ code → (f.literal index).isSome)
    (h : heightAfter f c code = some c') : Computes f c code c' := by
  induction code generalizing c with
  | nil =>
    cases h
    exact .done
  | cons opcode code ih =>
    obtain ⟨⟨pops, pushes⟩, harity, h⟩ := Option.bind_eq_some_iff.mp h
    obtain ⟨⟨hpops, hpushes, hunpack⟩, hrest⟩ := Option.ite_none_right_eq_some.mp h
    simp only at hpops hpushes hrest
    subst hpushes
    obtain ⟨below, rfl⟩ := Nat.exists_eq_add_of_le' hpops
    rw [Nat.add_sub_cancel] at hrest
    have hcode := ih (fun index hmem => hliteral index (List.mem_cons_of_mem _ hmem)) hrest
    by_cases hfreeze : opcode = .FreezeRef
    · subst hfreeze
      cases harity
      exact .freeze hcode
    · have hmoves : opcode ≠ .Pop ∧ opcode ≠ .Nop ∧ opcode ≠ .FreezeRef := by
        refine ⟨?_, ?_, hfreeze⟩ <;> rintro rfl <;> cases harity
      obtain ⟨head, hhead⟩ := head_of_arity harity hmoves
        fun index heq => hliteral index (heq ▸ List.mem_cons_self)
      exact .value hhead harity hunpack hcode

/-- Code that pushes one value with each instruction, and leaves one. -/
def Test.ofHeight {f : Function} (code : List Bytecode)
    (hliteral : ∀ index, .LdConst index ∈ code → (f.literal index).isSome)
    (hheight : heightAfter f 0 code = some 1) : Test f :=
  ⟨code, computes_of_height hliteral hheight⟩

/-- The condition of a loop must say where it begins: its first value is not frozen right after it
is pushed. -/
inductive Compiled (f : Function) where
  | done
  | statements (s : Straight f) (rest : Compiled f)
  | ifElse (c : Test f) (trueBranch falseBranch rest : Compiled f)
  | ifThen (c : Test f) (trueBranch rest : Compiled f)
  | whileLoop (c : Test f) (hfreeze : c.code[1]? ≠ some .FreezeRef) (body rest : Compiled f)

variable {f : Function}

namespace Compiled

def size : Compiled f → ℕ
  | done => 0
  | statements s rest => s.code.length + rest.size
  | ifElse c trueBranch falseBranch rest =>
    c.code.length + 2 + trueBranch.size + 1 + falseBranch.size + rest.size
  | ifThen c trueBranch rest => c.code.length + 2 + trueBranch.size + rest.size
  | whileLoop c _ body rest => c.code.length + 2 + body.size + 1 + rest.size

def code : ℕ → Compiled f → List Bytecode
  | _, done => []
  | offset, statements s rest => s.code ++ rest.code (offset + s.code.length)
  | offset, ifElse c trueBranch falseBranch rest =>
    let trueOffset := offset + c.code.length + 2
    let falseOffset := trueOffset + trueBranch.size + 1
    let stop := falseOffset + falseBranch.size
    c.code ++ (.BrTrue trueOffset :: .Branch falseOffset :: (trueBranch.code trueOffset ++
      .Branch stop :: falseBranch.code falseOffset)) ++ rest.code stop
  | offset, ifThen c trueBranch rest =>
    let trueOffset := offset + c.code.length + 2
    let stop := trueOffset + trueBranch.size
    c.code ++ (.BrTrue trueOffset :: .Branch stop :: trueBranch.code trueOffset) ++ rest.code stop
  | offset, whileLoop c _ body rest =>
    let bodyOffset := offset + c.code.length + 2
    let stop := bodyOffset + body.size + 1
    c.code ++ (.BrTrue bodyOffset :: .Branch stop :: (body.code bodyOffset ++ [.Branch offset])) ++
      rest.code stop

def restored : ℕ → Compiled f → List ExpLoc
  | _, done => []
  | offset, statements s rest =>
    f.translation offset s.code ++ rest.restored (offset + s.code.length)
  | offset, ifElse c trueBranch falseBranch rest =>
    let trueOffset := offset + c.code.length + 2
    let falseOffset := trueOffset + trueBranch.size + 1
    let stop := falseOffset + falseBranch.size
    .mk (stop - 1) (.If (f.condition offset c.code)
      (.mk (trueBranch.restored trueOffset ++ [.mk (falseOffset - 1) .Nop]) true)
      (branchOf (falseBranch.restored falseOffset))) :: rest.restored stop
  | offset, ifThen c trueBranch rest =>
    let trueOffset := offset + c.code.length + 2
    let stop := trueOffset + trueBranch.size
    .mk (stop - 1) (.If (f.condition offset c.code)
      (.mk (explicitRet (trueBranch.restored trueOffset)) true) none) :: rest.restored stop
  | offset, whileLoop c _ body rest =>
    let bodyOffset := offset + c.code.length + 2
    let stop := bodyOffset + body.size + 1
    .mk (stop - 1) (.While (f.condition offset c.code) (.mk (body.restored bodyOffset) true)) ::
      rest.restored stop

end Compiled

variable {offset : ℕ} {opcode : Bytecode} {code code' : List Bytecode} {es es' : List ExpLoc}

/-- Wherever `code` stands, it is translated to `es`. -/
structure Becomes (f : Function) (offset : ℕ) (code : List Bytecode) (es : List ExpLoc) : Prop where
  turns : ∀ below, Turns f offset code below (below ++ es)
  ends : EndsPlain code es

theorem Becomes.alone (h : Becomes f offset code es) : Turns f offset code [] es := h.turns []

theorem Becomes.append (h : Becomes f offset code es)
    (h' : Becomes f (offset + code.length) code' es') :
    Becomes f offset (code ++ code') (es ++ es') where
  turns below := by
    rw [← List.append_assoc]
    exact (h.turns below).append (h'.turns _)
  ends := h.ends.append h'.ends

theorem Settles.notBranch {c m c' m' : ℕ} (h : Settles f c m code c' m') :
    ∀ opcode ∈ code, opcode.offset = none := by
  induction h with
  | done => exact fun _ hmem => absurd hmem List.not_mem_nil
  | nop _ ih | pop _ _ ih | freeze _ ih | store _ _ ih =>
    exact List.forall_mem_cons.mpr ⟨rfl, ih⟩
  | value _ harity _ _ ih | statement _ harity _ _ _ _ ih =>
    exact List.forall_mem_cons.mpr ⟨notBranch_of_arity harity, ih⟩
  | @unpack c m c' m' opcode head stores code _ harity _ hstores _ _ ih =>
    have hfields : ∀ {discards : Bool} {stores : List Bytecode},
        storesThenPops discards stores.length stores = true →
          ∀ store ∈ stores, store.offset = none := by
      intro discards stores hstores
      induction stores generalizing discards with
      | nil => exact fun _ hmem => absurd hmem List.not_mem_nil
      | cons store stores ih =>
        obtain ⟨_, _, heq, hop⟩ := storesThenPops_cons hstores
        cases heq
        rcases hop with ⟨index, rfl, -, hrest⟩ | ⟨rfl, hrest⟩
        · exact List.forall_mem_cons.mpr ⟨rfl, ih hrest⟩
        · exact List.forall_mem_cons.mpr ⟨rfl, ih hrest⟩
    exact List.forall_mem_cons.mpr ⟨notBranch_of_arity harity,
      List.forall_mem_append.mpr ⟨hfields hstores, ih⟩⟩

theorem Straight.means (s : Straight f) (offset : ℕ) :
    Means f offset 0 s.code [] (f.translation offset s.code) [] := by
  obtain ⟨more, left, hleft, hmeans⟩ := s.settles.means List.length_nil (nothing_pending f) offset
  obtain rfl := List.length_eq_zero_iff.mp hleft
  have hturns := hmeans.turns []
  rw [List.append_nil, List.append_nil] at hturns
  have halone : f.translation offset s.code = more := Turns.translation hturns
  rwa [halone]

theorem Straight.becomes (s : Straight f) (offset : ℕ) :
    Becomes f offset s.code (f.translation offset s.code) where
  turns below := by simpa using (s.means offset).turns below
  ends := by
    cases hcode : s.code.getLast? with
    | none =>
      have hnil := List.getLast?_eq_none_iff.mp hcode
      refine .inl ⟨hnil, ?_⟩
      rw [hnil]
      exact (Turns.nil f offset []).translation
    | some last =>
      exact .inr (.inl ⟨last, hcode, s.settles.notBranch last (List.mem_of_getLast? hcode)⟩)

theorem Becomes.of_test {c : Test f} {index : ℕ} {e : Exp} (hjump : e.isJump = false)
    (h : ∀ below, Turns f (offset + c.code.length) code
      (below ++ [f.condition offset c.code]) (below ++ [.mk index e])) :
    Becomes f offset (c.code ++ code) [.mk index e] where
  turns below := ((c.computes.condition offset).2.1 below).append (h below)
  ends := .inr (.inr ⟨_, rfl, hjump⟩)

theorem Becomes.at {offset' : ℕ} (h : Becomes f offset code es) (ho : offset = offset') :
    Becomes f offset' code es := ho ▸ h

namespace Compiled

theorem code_length (p : Compiled f) (offset : ℕ) : (p.code offset).length = p.size := by
  induction p generalizing offset with
  | done => rfl
  | statements s rest ih => rw [code, List.length_append, ih, size]
  | ifElse c trueBranch falseBranch rest ihTrue ihFalse ih =>
    simp only [code, List.length_append, List.length_cons, ihTrue, ihFalse, ih, size]
    omega
  | ifThen c trueBranch rest ihTrue ih =>
    simp only [code, List.length_append, List.length_cons, ihTrue, ih, size]
    omega
  | whileLoop c _ body rest ihBody ih =>
    simp only [code, List.length_append, List.length_cons, List.length_nil, ihBody, ih, size]
    omega

theorem becomes (p : Compiled f) (offset : ℕ) :
    Becomes f offset (p.code offset) (p.restored offset) := by
  induction p generalizing offset with
  | done =>
    refine ⟨fun below => ?_, .inl ⟨rfl, rfl⟩⟩
    rw [restored, List.append_nil]
    exact .nil f offset below
  | statements s rest ih => exact (s.becomes offset).append (ih _)
  | ifElse c trueBranch falseBranch rest ihTrue ihFalse ih =>
    have hpart : Becomes f offset (c.code ++ _) [_] := .of_test rfl fun below =>
      ifElse_turns (by rw [code_length]) (by rw [code_length]) (ihTrue _).alone (ihFalse _).alone
        below (f.condition offset c.code)
    refine hpart.append ((ih _).at ?_)
    simp only [List.length_append, List.length_cons, code_length]
    omega
  | ifThen c trueBranch rest ihTrue ih =>
    have hpart : Becomes f offset (c.code ++ _) [_] := .of_test rfl fun below =>
      ifThen_turns (ihTrue _).alone (ihTrue _).ends below (f.condition offset c.code)
    rw [code_length] at hpart
    have hindex : offset + c.code.length + (trueBranch.size + 1) =
        offset + c.code.length + 2 + trueBranch.size - 1 := by omega
    rw [hindex] at hpart
    refine hpart.append ((ih _).at ?_)
    simp only [List.length_append, List.length_cons, code_length]
    omega
  | whileLoop c hfreeze body rest ihBody ih =>
    have hstart := (c.computes.condition offset).2.2 hfreeze
    have hpart : Becomes f offset (c.code ++ _) [_] := .of_test rfl fun below =>
      while_turns (ihBody _).alone hstart (Nat.le_add_right _ _) (by rw [code_length]) below
    refine hpart.append ((ih _).at ?_)
    simp only [List.length_append, List.length_cons, List.length_nil, code_length]
    omega

end Compiled

section
variable {V σ ε : Type} (I : Interpretation f V σ ε) {body after : List Bytecode} {stop : ℕ}

/-- The program ends, with whatever fuel it was given. -/
def Program.Ends {α : Type} (x : Program σ ε α) : Prop := ∀ s, x s ≠ Attempt.stuck

theorem perform_ends (head : Head) (vs : List V) : (I.perform head vs).Ends := by
  intro s
  unfold perform
  split <;> exact result_ne_stuck _

theorem Program.Ends.bind_pure {α β : Type} {x : Program σ ε α} (h : x.Ends) (g : α → β) :
    (x >>= fun a => pure (g a)).Ends := by
  intro s
  rw [Program.bind_apply]
  rcases hx : x s with _ | e | r
  · exact absurd hx (h s)
  · exact result_ne_stuck _
  · exact result_ne_stuck _

theorem step_ends (opcode : Bytecode) (stack : List V) : (I.step opcode stack).Ends := by
  unfold step
  split
  case h_1 | h_2 | h_3 => exact fun s => result_ne_stuck _
  case h_4 =>
    split
    · split
      · exact (perform_ends I _ _).bind_pure _
      · exact fun s => result_ne_stuck _
    · exact fun s => result_ne_stuck _

theorem getElem?_of_drop_append (hbody : body.drop offset = code ++ opcode :: after) :
    body[offset + code.length]? = some opcode := by
  rw [← List.getElem?_drop, hbody, List.getElem?_append_right (Nat.le_refl _), Nat.sub_self,
    List.getElem?_cons_zero]

/-- Code without branches is run from its first instruction to its end. -/
theorem exec_simulates (hbranch : ∀ opcode ∈ code, opcode.offset = none)
    (hbody : body.drop offset = code ++ after) (stack : List V) (s : σ) :
    Simulates (I.turn body) (fun _ => I.exec code stack s) ⟨offset, stack, s⟩
      fun r => ⟨offset + code.length, r.1, r.2⟩ := by
  induction code generalizing offset stack s with
  | nil => exact .pure (stack, s) rfl
  | cons opcode code ih =>
    obtain ⟨hop, hrest⟩ := List.forall_mem_cons.mp hbranch
    have hat : body[offset]? = some opcode := by
      rw [← List.head?_drop, hbody]
      rfl
    have htail : body.drop (offset + 1) = code ++ after := by
      rw [← List.tail_drop, hbody]
      rfl
    have hfirst : Simulates (I.turn body) (fun _ => I.step opcode stack s) ⟨offset, stack, s⟩
        fun r => ⟨offset + 1, r.1, r.2⟩ :=
      .of_step _ (step_ends I opcode stack s) (turn_step I hat hop)
    have hmore := hfirst.bind fun r => ih hrest htail r.1 r.2
    rw [List.length_cons, Nat.add_comm code.length, ← Nat.add_assoc]
    exact hmore

/-- The machine runs through the piece as the statements are executed. -/
def Runs (body : List Bytecode) (offset : ℕ) (es : List ExpLoc) (stop : ℕ) : Prop :=
  ∀ s, Simulates (I.turn body) (fun fuel => I.statements fuel es s) ⟨offset, [], s⟩
    fun r => ⟨stop, [], r.2⟩

theorem Runs.append {middle : ℕ} (h : Runs I body offset es middle)
    (h' : Runs I body middle es' stop) : Runs I body offset (es ++ es') stop := by
  intro s
  apply ((h s).bind fun r => h' r.2).congr
  intro fuel
  rw [statements_append]
  rfl

theorem Straight.exec_eq (s : Straight f) (offset fuel : ℕ) :
    I.exec s.code [] = I.statements fuel (f.translation offset s.code) >>= fun _ => pure [] := by
  have hmeaning := (s.means offset).meaning I fuel [] rfl
  simp only [values_nil, pure_bind, List.reverse_nil, List.nil_append, List.length_nil,
    List.take_zero] at hmeaning
  rw [← hmeaning]
  conv_lhs => rw [← bind_pure (I.exec s.code [])]
  refine (s.settles.gives I rfl).bind_congr fun stack hstack => ?_
  rw [List.length_eq_zero_iff.mp hstack]

theorem Straight.runs (s : Straight f) (hbody : body.drop offset = s.code ++ after) :
    Runs I body offset (f.translation offset s.code) (offset + s.code.length) := by
  intro state
  have hexec := exec_simulates I s.settles.notBranch hbody [] state
  exact hexec.of_map (fun r : Unit × σ => ([], r.2)) fun fuel =>
    congrFun (s.exec_eq I offset fuel) state

theorem Test.exec_eq (c : Test f) (offset fuel : ℕ) : I.exec c.code [] =
    I.value fuel (f.condition offset c.code) >>= fun v => pure [v] := by
  have hsettles : Settles f 0 0 c.code 1 0 := c.computes.settles
  obtain ⟨more, left, hleft, hmeans⟩ := hsettles.means List.length_nil (nothing_pending f) offset
  have halone : f.translation offset c.code = more ++ left := Turns.translation (hmeans.turns [])
  rw [(c.computes.condition offset).1] at halone
  obtain ⟨e, rfl⟩ := List.length_eq_one_iff.mp hleft
  have halone : [] ++ [f.condition offset c.code] = more ++ [e] := halone
  obtain ⟨hmore, he⟩ := List.append_inj' halone rfl
  cases hmore
  cases he
  have hmeaning := hmeans.meaning I fuel [] rfl
  have hnone : I.statements fuel [] = pure () := rfl
  simp only [values_nil, pure_bind, List.reverse_nil, List.nil_append, List.length_singleton,
    hnone, values_singleton, bind_assoc, List.reverse_singleton] at hmeaning
  rw [← hmeaning]
  conv_lhs => rw [← bind_pure (I.exec c.code [])]
  refine (hsettles.gives I rfl).bind_congr fun stack hstack => ?_
  rw [List.take_of_length_le (Nat.le_of_eq hstack)]

theorem Test.runs (c : Test f) (hbody : body.drop offset = c.code ++ after) (s : σ) :
    Simulates (I.turn body) (fun fuel => I.value fuel (f.condition offset c.code) s)
      ⟨offset, [], s⟩ fun r => ⟨offset + c.code.length, [r.1], r.2⟩ := by
  have hsettles : Settles f 0 0 c.code 1 0 := c.computes.settles
  have hexec := exec_simulates I hsettles.notBranch hbody [] s
  exact hexec.of_map (fun r : V × σ => ([r.1], r.2)) fun fuel =>
    congrFun (c.exec_eq I offset fuel) s

theorem turn_branch {o target : ℕ} (hop : body[o]? = some (.Branch target)) (stack : List V)
    (s : σ) : I.turn body ⟨o, stack, s⟩ = result (.ok (.again ⟨target, stack, s⟩)) := by
  unfold turn
  rw [hop]
  rfl

theorem turn_brTrue {o target : ℕ} (hop : body[o]? = some (.BrTrue target)) (v : V) (s : σ) :
    I.turn body ⟨o, [v], s⟩ =
      result (.ok (.again ⟨if I.truth v = true then target else o + 1, [], s⟩)) := by
  unfold turn
  rw [hop]
  rfl

theorem leads_branch {o target : ℕ} (hop : body[o]? = some (.Branch target)) (s : σ) :
    Leads (I.turn body) ⟨o, [], s⟩ ⟨target, [], s⟩ :=
  .next (turn_branch I hop [] s) (.refl _ _)

theorem leads_brTrue {o target falseOffset : ℕ} (htrue : body[o]? = some (.BrTrue target))
    (hfalse : body[o + 1]? = some (.Branch falseOffset)) (v : V) (s : σ) :
    Leads (I.turn body) ⟨o, [v], s⟩ ⟨if I.truth v then target else falseOffset, [], s⟩ := by
  refine .next (turn_brTrue I htrue v s) ?_
  cases I.truth v with
  | true => exact .refl _ _
  | false => exact leads_branch I hfalse s

theorem chosen_simulates {β : Type} {o target falseOffset : ℕ} {exit : β × σ → Config V σ}
    {yes no : ℕ → Program σ ε β} (htrue : body[o]? = some (.BrTrue target))
    (hfalse : body[o + 1]? = some (.Branch falseOffset))
    (hyes : ∀ s, Simulates (I.turn body) (fun fuel => yes fuel s) ⟨target, [], s⟩ exit)
    (hno : ∀ s, Simulates (I.turn body) (fun fuel => no fuel s) ⟨falseOffset, [], s⟩ exit)
    (v : V) (s : σ) :
    Simulates (I.turn body) (fun fuel => (if I.truth v then yes fuel else no fuel) s)
      ⟨o, [v], s⟩ exit := by
  have hlead := leads_brTrue I htrue hfalse v s
  cases hv : I.truth v with
  | true =>
    rw [hv] at hlead
    exact (hyes s).after hlead
  | false =>
    rw [hv] at hlead
    exact (hno s).after hlead

theorem statements_singleton (fuel index : ℕ) (e : Exp) :
    I.statements fuel [.mk index e] = I.eval fuel e >>= fun _ => pure () := rfl

theorem statements_ifThen (fuel index : ℕ) (c : ExpLoc) (es : List ExpLoc) (keyword : Bool) :
    I.statements fuel [.mk index (.If c (.mk es keyword) none)] = I.value fuel c >>= fun v =>
      if I.truth v then I.statements fuel es else pure () := by
  rw [statements_singleton, eval, bind_assoc]
  refine congrArg _ (funext fun v => ?_)
  split
  · rw [bind_assoc]
    simp only [pure_bind]
    exact bind_pure _
  · simp only [pure_bind]

theorem statements_ifElse (fuel index : ℕ) (c : ExpLoc) (es es' : List ExpLoc)
    (keyword keyword' : Bool) :
    I.statements fuel [.mk index (.If c (.mk es keyword) (some (.mk es' keyword')))] =
      I.value fuel c >>= fun v =>
        if I.truth v then I.statements fuel es else I.statements fuel es' := by
  rw [statements_singleton, eval, bind_assoc]
  refine congrArg _ (funext fun v => ?_)
  split
  all_goals
    rw [bind_assoc]
    simp only [pure_bind]
    exact bind_pure _

theorem statements_branchOf (fuel index : ℕ) (c : ExpLoc) (es es' : List ExpLoc) (keyword : Bool) :
    I.statements fuel [.mk index (.If c (.mk es keyword) (branchOf es'))] =
      I.value fuel c >>= fun v =>
        if I.truth v then I.statements fuel es else I.statements fuel es' := by
  cases es' with
  | nil => exact statements_ifThen I fuel index c es keyword
  | cons e es' => exact statements_ifElse I fuel index c es (e :: es') keyword true

theorem statements_explicitRet (fuel : ℕ) (es : List ExpLoc) :
    I.statements fuel (explicitRet es) = I.statements fuel es := by
  unfold explicitRet
  split
  case h_1 index retList keyword hlast =>
    obtain ⟨init, rfl⟩ := List.getLast?_eq_some_iff.mp hlast
    rw [List.dropLast_concat, statements_append, statements_append]
    rfl
  case h_2 => rfl

theorem Runs.conditional {c : Test f} {e : ExpLoc} {falseOffset : ℕ}
    (hbody : body.drop offset = c.code ++ .BrTrue (offset + c.code.length + 2) ::
      .Branch falseOffset :: after)
    (htrue : Runs I body (offset + c.code.length + 2) es stop)
    (hfalse : Runs I body falseOffset es' stop)
    (he : ∀ fuel, I.statements fuel [e] = I.value fuel (f.condition offset c.code) >>= fun v =>
      if I.truth v then I.statements fuel es else I.statements fuel es') :
    Runs I body offset [e] stop := by
  have hop := getElem?_of_drop_append hbody
  have hnext : body.drop offset = (c.code ++ [.BrTrue (offset + c.code.length + 2)]) ++
      .Branch falseOffset :: after := by
    rw [hbody, List.append_assoc]
    rfl
  have hop' := getElem?_of_drop_append hnext
  rw [List.length_append, ← Nat.add_assoc] at hop'
  intro s
  have hchosen := fun r : V × σ => chosen_simulates I hop hop' htrue hfalse r.1 r.2
  apply ((c.runs I hbody s).bind hchosen).congr
  intro fuel
  rw [he]
  rfl

def whileTurn (fuel : ℕ) (c : ExpLoc) (es : List ExpLoc) : Program σ ε (Turn Unit Unit) :=
  I.value fuel c >>= fun v =>
    if I.truth v then I.statements fuel es >>= fun _ => pure (.again ()) else pure (.leave ())

theorem statements_while (fuel index : ℕ) (c : ExpLoc) (es : List ExpLoc) (keyword : Bool) :
    I.statements fuel [.mk index (.While c (.mk es keyword))] =
      Program.loop (whileTurn I fuel c es) fuel := by
  rw [statements_singleton, eval, bind_assoc]
  simp only [pure_bind]
  exact bind_pure _

/-- A turn ends at the jump back, or behind the loop. -/
def loopExit (stop : ℕ) (r : Turn Unit Unit × σ) : Config V σ :=
  match r.1 with
  | .leave _ => ⟨stop, [], r.2⟩
  | .again _ => ⟨stop - 1, [], r.2⟩

theorem Runs.whileLoop {c : Test f} (index : ℕ)
    (hbody : body.drop offset = c.code ++ .BrTrue (offset + c.code.length + 2) ::
      .Branch stop :: (code ++ .Branch offset :: after))
    (hstop : stop = offset + c.code.length + 2 + code.length + 1)
    (hruns : Runs I body (offset + c.code.length + 2) es (stop - 1)) :
    Runs I body offset [.mk index (.While (f.condition offset c.code) (.mk es true))] stop := by
  -- the jumps of the loop: two behind its condition, and one back to it
  have hop := getElem?_of_drop_append hbody
  have hnext : body.drop offset = (c.code ++ [.BrTrue (offset + c.code.length + 2)]) ++
      .Branch stop :: (code ++ .Branch offset :: after) := by
    rw [hbody, List.append_assoc]
    rfl
  have hop' := getElem?_of_drop_append hnext
  rw [List.length_append, ← Nat.add_assoc] at hop'
  have hlast : body.drop offset = (c.code ++ .BrTrue (offset + c.code.length + 2) ::
      .Branch stop :: code) ++ .Branch offset :: after := by
    rw [hbody, List.append_assoc]
    rfl
  have hjump := getElem?_of_drop_append hlast
  have hback : offset + (c.code ++ .BrTrue (offset + c.code.length + 2) ::
      .Branch stop :: code).length = stop - 1 := by
    simp only [List.length_append, List.length_cons]
    omega
  rw [hback] at hjump
  -- one turn: the condition, and then the body or nothing
  have hturn : ∀ s, Simulates (I.turn body)
      (fun fuel => whileTurn I fuel (f.condition offset c.code) es s) ⟨offset, [], s⟩
      (loopExit stop) := by
    intro s
    have hyes : ∀ s, Simulates (I.turn body)
        (fun fuel => (I.statements fuel es >>= fun _ => pure (Turn.again ())) s)
        ⟨offset + c.code.length + 2, [], s⟩ (loopExit stop) :=
      fun s => (hruns s).bind fun r => .pure (Turn.again (), r.2) rfl
    have hno : ∀ s, Simulates (I.turn body)
        (fun _ => (pure (Turn.leave ()) : Program σ ε (Turn Unit Unit)) s) ⟨stop, [], s⟩
        (loopExit stop) := fun s => .pure (Turn.leave (), s) rfl
    exact (c.runs I hbody s).bind fun r => chosen_simulates I hop hop' hyes hno r.1 r.2
  have hbody' : ∀ s, Simulates (I.turn body)
      (fun fuel => whileTurn I fuel (f.condition offset c.code) es s >>= fun r =>
        pure (Program.turnOf r)) ⟨offset, [], s⟩
      (turnExit (fun r : Unit × σ => ⟨stop, [], r.2⟩) fun s => ⟨stop - 1, [], s⟩) := by
    refine fun s => (hturn s).bind fun r => ?_
    obtain ⟨a | _, s⟩ := r
    · exact .pure (Turn.leave (a, s)) rfl
    · exact .pure (Turn.again s) rfl
  intro s
  apply (Simulates.loop hbody' (fun s => turn_branch I hjump [] s) s).congr
  intro fuel
  rw [statements_while]
  rfl

theorem Runs.leads {stop' : ℕ} (h : Runs I body offset es stop)
    (hlead : ∀ s, Leads (I.turn body) ⟨stop, [], s⟩ ⟨stop', [], s⟩) :
    Runs I body offset es stop' := fun s => (h s).leads fun r => hlead r.2

theorem Runs.nop (body : List Bytecode) (index stop : ℕ) : Runs I body stop [.mk index .Nop] stop :=
  fun s => .pure ((), s) rfl

theorem drop_test {c : Test f} {opcode opcode' : Bytecode}
    (hbody : body.drop offset = c.code ++ opcode :: opcode' :: after) :
    body.drop (offset + c.code.length + 2) = after := by
  rw [← List.drop_drop, drop_add_length hbody]
  rfl

theorem drop_jump {opcode : Bytecode} (hbody : body.drop offset = code ++ opcode :: after) :
    body.drop (offset + code.length + 1) = after := by
  rw [← List.drop_drop, drop_add_length hbody]
  rfl

open Compiled in
/-- The machine runs through compiled code as the restored statements are executed. -/
theorem Compiled.runs (p : Compiled f) (hbody : body.drop offset = p.code offset ++ after) :
    Runs I body offset (p.restored offset) (offset + p.size) := by
  induction p generalizing offset after with
  | done => exact fun s => .pure ((), s) rfl
  | statements s rest ih =>
    rw [code, List.append_assoc] at hbody
    have hrest := ih (drop_add_length hbody)
    rw [Nat.add_assoc] at hrest
    exact (s.runs I hbody).append I hrest
  | ifElse c trueBranch falseBranch rest ihTrue ihFalse ih =>
    simp only [code, List.append_assoc, List.cons_append] at hbody
    have htrueBody := drop_test hbody
    have htrue := ihTrue htrueBody
    have hfalseBody := drop_jump htrueBody
    rw [code_length] at hfalseBody
    have hfalse := ihFalse hfalseBody
    have hrestBody := drop_add_length hfalseBody
    rw [code_length] at hrestBody
    have hrest := ih hrestBody
    -- the true block ends with the jump over the false one, which is restored as a `Nop`
    have hjump := getElem?_of_drop_append htrueBody
    rw [code_length] at hjump
    have hnop := Runs.nop I body (offset + c.code.length + 2 + trueBranch.size + 1 - 1)
      (offset + c.code.length + 2 + trueBranch.size)
    have hyes := (htrue.append I hnop).leads I fun s => leads_branch I hjump s
    have hpart := Runs.conditional I hbody hyes hfalse fun fuel =>
      statements_branchOf I fuel (offset + c.code.length + 2 + trueBranch.size + 1 +
        falseBranch.size - 1) (f.condition offset c.code) _ _ true
    have hend : offset + (ifElse c trueBranch falseBranch rest).size = offset + c.code.length + 2 +
        trueBranch.size + 1 + falseBranch.size + rest.size := by
      rw [size]
      omega
    rw [hend]
    exact hpart.append I hrest
  | ifThen c trueBranch rest ihTrue ih =>
    simp only [code, List.append_assoc, List.cons_append] at hbody
    have htrueBody := drop_test hbody
    have htrue := ihTrue htrueBody
    have hrestBody := drop_add_length htrueBody
    rw [code_length] at hrestBody
    have hrest := ih hrestBody
    -- the second jump leads behind the true block
    have hnothing : ∀ o, Runs I body o [] o := fun o s => .pure ((), s) rfl
    have hpart := Runs.conditional I hbody htrue (hnothing _) fun fuel => by
      rw [statements_ifThen I fuel (offset + c.code.length + 2 + trueBranch.size - 1)
        (f.condition offset c.code) (explicitRet (trueBranch.restored _)) true,
        statements_explicitRet]
      rfl
    have hend : offset + (ifThen c trueBranch rest).size = offset + c.code.length + 2 +
        trueBranch.size + rest.size := by
      rw [size]
      omega
    rw [hend]
    exact hpart.append I hrest
  | whileLoop c hfreeze loop rest ihLoop ih =>
    simp only [code, List.append_assoc, List.cons_append, List.nil_append] at hbody
    have hloopBody := drop_test hbody
    have hloop := ihLoop hloopBody
    have hrestBody := drop_jump hloopBody
    rw [code_length] at hrestBody
    have hrest := ih hrestBody
    -- the jump behind the body leads back to the first instruction of the condition
    have hpart := Runs.whileLoop I (offset + c.code.length + 2 + loop.size + 1 - 1) hbody
      (by rw [code_length]) hloop
    have hend : offset + (whileLoop c hfreeze loop rest).size = offset + c.code.length + 2 +
        loop.size + 1 + rest.size := by
      rw [size]
      omega
    rw [hend]
    exact hpart.append I hrest

end

/-- Every compiled body is translated to one `If` for each conditional and one `While` for each
loop, with its other statements in their places. -/
theorem compiled_restored (f : Function) (p : Compiled f) (hcode : f.code = p.code 0) {fuel : ℕ}
    (hfuel : f.code.length < fuel) :
    ∃ t, translate f fuel (bodyTranslator f) = .ok t ∧ t.expressions = p.restored 0 := by
  have hbody : Turns f 0 f.code [] (p.restored 0) := hcode ▸ (p.becomes 0).alone
  exact hbody.wholeBody hfuel

/-- The restored statements end just when the machine ends on the body, and with the same result. -/
theorem compiled_preserved (f : Function) (p : Compiled f) (hcode : f.code = p.code 0) {fuel : ℕ}
    (hfuel : f.code.length < fuel) {V σ ε : Type} (I : Interpretation f V σ ε) (s : σ)
    (r : Except (Halt ε) (List V × σ)) :
    ∃ t, translate f fuel (bodyTranslator f) = .ok t ∧
      ((∃ steps, I.run f.code steps s = result r) ↔
        ∃ loops b, I.statements loops t.expressions s = result b ∧
          b.map (fun b => ([], b.2)) = r) := by
  have hturns : Turns f 0 f.code [] (p.restored 0) := hcode ▸ (p.becomes 0).alone
  obtain ⟨t, ht, hexp⟩ := hturns.wholeBody hfuel
  refine ⟨t, ht, ?_⟩
  rw [hexp]
  have hbody : f.code.drop 0 = p.code 0 ++ [] := by
    rw [List.append_nil]
    exact hcode
  have hruns := p.runs I hbody s
  have hend : f.code[0 + p.size]? = none := by
    apply List.getElem?_eq_none
    rw [hcode, p.code_length, Nat.zero_add]
  exact hruns.result_iff (fun b => turn_end I hend) r

/-- `let x = 0; while (x < 3) { x = x + 1 }` -/
def countScript : Function := scriptOf [.LdU64 0, .StLoc 0, .CopyLoc 0, .LdU64 3, .Lt, .BrTrue 7,
  .Branch 12, .CopyLoc 0, .LdU64 1, .Add, .StLoc 0, .Branch 2]

def countTest : Test countScript := .ofHeight [.CopyLoc 0, .LdU64 3, .Lt] (by simp) rfl

def countLoop : Compiled countScript :=
  .statements (.ofOrderly [.LdU64 0, .StLoc 0] (by simp) rfl rfl)
    (.whileLoop countTest (by decide)
      (.statements (.ofOrderly [.CopyLoc 0, .LdU64 1, .Add, .StLoc 0] (by simp) rfl rfl) .done)
      .done)

theorem countLoop_restored : ∃ t, translate countScript 13 (bodyTranslator countScript) = .ok t ∧
    t.expressions = countLoop.restored 0 :=
  compiled_restored countScript countLoop rfl (by decide)

def counted : Except (Halt Unit) (List ℕ × List (Local × ℕ)) :=
  .ok ([], [(.Var 0, 3), (.Var 0, 2), (.Var 0, 1), (.Var 0, 0)])

theorem countLoop_preserved : ∃ t, translate countScript 13 (bodyTranslator countScript) = .ok t ∧
    ((∃ steps, (arithmetic countScript).run countScript.code steps [] = result counted) ↔
      ∃ loops b, (arithmetic countScript).statements loops t.expressions [] = result b ∧
        b.map (fun b => ([], b.2)) = counted) :=
  compiled_preserved countScript countLoop rfl (by decide) (arithmetic countScript) [] counted

set_option maxRecDepth 4000 in
example : (arithmetic countScript).run countScript.code 40 [] = result counted := rfl

end MoveTools.Disassembler
