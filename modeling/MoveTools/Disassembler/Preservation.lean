import MoveTools.Disassembler.Meaning

namespace MoveTools.Disassembler

open Attempt Interpretation

/-- Of the expressions `pending` and of `code`, the statements `more` and the expressions `left` are
made, and they mean the same: on top of `m` values that nobody looks at, the code leaves the values
of `left`. -/
structure Means (f : Function) (offset m : ℕ) (code : List Bytecode)
    (pending more left : List ExpLoc) : Prop where
  leftPending : ∀ e ∈ left, Pending f e
  turns : ∀ below, Turns f offset code (below ++ pending) (below ++ (more ++ left))
  meaning : ∀ {V σ ε : Type} (I : Interpretation f V σ ε) (fuel : ℕ) (junk : List V),
    junk.length = m →
      (I.values fuel pending >>= fun vs => I.exec code (vs.reverse ++ junk) >>= fun stack =>
        pure (stack.take left.length)) =
      I.statements fuel more >>= fun _ => I.values fuel left >>= fun vs => pure vs.reverse

section
variable {f : Function} {code first : List Bytecode} {keep operands pending more left es :
  List ExpLoc} {e : ExpLoc} {offset m n p : ℕ}

theorem Means.done (hpending : ∀ e ∈ pending, Pending f e) (offset m : ℕ) :
    Means f offset m [] pending [] pending where
  leftPending := hpending
  turns below := .nil f offset _
  meaning I fuel junk _ := by
    have hstatements : I.statements fuel [] = pure () := rfl
    rw [hstatements, pure_bind]
    apply (values_gives I fuel pending).bind_congr
    intro vs hvs
    have htake : (vs.reverse ++ junk).take pending.length = vs.reverse :=
      List.take_left' (by rw [List.length_reverse, hvs])
    rw [exec, pure_bind, htake]

theorem Means.after (hturns : ∀ below, Turns f offset first (below ++ pending) (below ++ es))
    (hmeaning : ∀ {V σ ε : Type} (I : Interpretation f V σ ε) (fuel : ℕ) (junk : List V)
      (next : List V → Program σ ε (List V)) (result : Program σ ε (List V)), junk.length = m →
      (∀ stack, stack.length = n → next stack = result) →
        (I.values fuel pending >>= fun vs => I.exec first (vs.reverse ++ junk) >>= next) =
          I.statements fuel es >>= fun _ => result)
    (hrest : Means f (offset + first.length) n code [] more left) :
    Means f offset m (first ++ code) pending (es ++ more) left where
  leftPending := hrest.leftPending
  turns below := by
    have h := hrest.turns (below ++ es)
    rw [List.append_nil, List.append_assoc] at h
    rw [List.append_assoc]
    exact (hturns below).append h
  meaning I fuel junk hjunk := by
    have hnext := fun stack => hrest.meaning I fuel stack
    have hnil : I.values fuel [] = pure [] := rfl
    simp only [hnil, pure_bind, List.reverse_nil, List.nil_append] at hnext
    have h := hmeaning I fuel junk (fun stack => I.exec code stack >>= fun stack =>
      pure (stack.take left.length)) _ hjunk hnext
    simp only [exec_append, statements_append, bind_assoc]
    exact h

theorem Does.statement (h : Does f offset first operands e p) (hkeep : ∀ e ∈ keep, Pending f e)
    (hrest : Means f (offset + first.length) (p + keep.length + m) code [] more left) :
    Means f offset m (first ++ code) (keep ++ operands) (keep ++ [e] ++ more) left := by
  refine .after (fun below => ?_) (fun I fuel junk next result hjunk hnext => ?_) hrest
  · rw [← List.append_assoc, ← List.append_assoc]
    exact h.turns (below ++ keep)
  · obtain ⟨act, heval, hact⟩ := h.meaning I fuel
    have hone : I.statements fuel [e] = I.values fuel operands >>= fun vs => act vs >>= fun _ =>
        pure () := by
      have hcons : I.statements fuel [e] = I.evalLoc fuel e >>= fun _ => pure () := rfl
      rw [hcons, heval, bind_assoc]
    rw [values_append, statements_append, statements_of_pending I hkeep, hone]
    simp only [bind_assoc, pure_bind]
    refine (values_gives I fuel keep).bind_congr fun vs hvs => ?_
    refine (values_gives I fuel operands).bind_congr fun ws hws => ?_
    obtain ⟨hgives, hexec⟩ := hact ws hws
    rw [List.reverse_append, List.append_assoc, hexec, bind_assoc]
    refine hgives.bind_congr fun rs hrs => ?_
    rw [pure_bind]
    apply hnext
    simp only [List.length_append, List.length_reverse, hvs, hrs, hjunk]
    omega

theorem Does.value (h : Does f offset first operands e 1)
    (hrest : Means f (offset + first.length) m code (keep ++ [e]) more left) :
    Means f offset m (first ++ code) (keep ++ operands) more left where
  leftPending := hrest.leftPending
  turns below := by
    have hmore := hrest.turns below
    rw [← List.append_assoc] at hmore ⊢
    exact (h.turns (below ++ keep)).append hmore
  meaning I fuel junk hjunk := by
    obtain ⟨act, heval, hact⟩ := h.meaning I fuel
    have hone : I.values fuel [e] = I.values fuel operands >>= act := by
      have hgives : (I.values fuel operands >>= act).Gives fun rs => rs.length = 1 :=
        (values_gives I fuel operands).bind fun vs hvs => (hact vs hvs).1
      have hsingle : I.values fuel [e] =
          I.evalLoc fuel e >>= fun vs => single vs >>= fun v => pure [v] := by
        rw [values_singleton, value_eq, evalLoc_eq, bind_assoc]
      rw [hsingle, heval]
      conv_rhs => rw [← bind_pure (I.values fuel operands >>= act)]
      refine hgives.bind_congr fun rs hrs => ?_
      obtain ⟨r, rfl⟩ := List.length_eq_one_iff.mp hrs
      exact pure_bind r fun v => pure [v]
    rw [← hrest.meaning I fuel junk hjunk, values_append, values_append, hone]
    simp only [bind_assoc, pure_bind, exec_append]
    refine (values_gives I fuel keep).bind_congr fun vs _ => ?_
    refine (values_gives I fuel operands).bind_congr fun ws hws => ?_
    rw [List.reverse_append, List.append_assoc, (hact ws hws).2, bind_assoc]
    simp only [pure_bind, List.reverse_append, List.append_assoc]

theorem Means.pop (hpending : ∀ e ∈ pending, Pending f e) (hn : pending.length + m = n + 1)
    (hrest : Means f (offset + 1) n code [] more left) :
    Means f offset m (.Pop :: code) pending (pending ++ [.mk offset .Nop] ++ more) left := by
  have hfirst : Means f offset m ([.Pop] ++ code) pending
      (pending ++ [.mk offset .Nop] ++ more) left := by
    refine .after (n := n) (fun below => ?_) (fun I fuel junk next result hjunk hnext => ?_) hrest
    · rw [← List.append_assoc]
      exact pop_turns offset (below ++ pending)
    · have hnop : I.statements fuel [.mk offset .Nop] = pure () := pure_bind _ _
      rw [statements_append, statements_of_pending I hpending, hnop]
      simp only [bind_assoc, pure_bind]
      refine (values_gives I fuel pending).bind_congr fun vs hvs => ?_
      have hlen : (vs.reverse ++ junk).length = n + 1 := by
        rw [List.length_append, List.length_reverse, hvs, hjunk, hn]
      obtain ⟨v, stack, hstack⟩ := List.exists_cons_of_length_eq_add_one hlen
      rw [hstack, exec_single]
      rw [hstack] at hlen
      exact (pure_bind stack next).trans (hnext stack (Nat.succ.inj hlen))
  exact hfirst

end

section
variable {f : Function} {code : List Bytecode} {c m c' m' : ℕ} {pending : List ExpLoc}

theorem split_pending {n : ℕ} (h : pending.length = c + n) :
    ∃ keep operands, pending = keep ++ operands ∧ keep.length = c ∧ operands.length = n := by
  refine ⟨pending.take c, pending.drop c, (List.take_append_drop c pending).symm, ?_, ?_⟩
  · rw [List.length_take, h]
    exact Nat.min_eq_left (Nat.le_add_right c n)
  · rw [List.length_drop, h, Nat.add_sub_cancel_left]

theorem length_concat (h : pending.length = c) (e : ExpLoc) : (pending ++ [e]).length = c + 1 := by
  rw [List.length_append, h, List.length_singleton]

theorem Settles.means (h : Settles f c m code c' m') (hlen : pending.length = c)
    (hpending : ∀ e ∈ pending, Pending f e) (offset : ℕ) :
    ∃ more left, left.length = c' ∧ Means f offset m code pending more left := by
  induction h generalizing pending offset with
  | done => exact ⟨[], pending, hlen, .done hpending offset _⟩
  | nop _ ih =>
    obtain ⟨more, left, hleft, hrest⟩ := ih List.length_nil (nothing_pending f) (offset + 1)
    rw [← hlen, ← Nat.zero_add pending.length] at hrest
    have hfirst := (does_nop f offset).statement hpending hrest
    rw [List.append_nil] at hfirst
    exact ⟨_, left, hleft, hfirst⟩
  | pop hn _ ih =>
    obtain ⟨more, left, hleft, hrest⟩ := ih List.length_nil (nothing_pending f) (offset + 1)
    exact ⟨_, left, hleft, .pop hpending (hlen ▸ hn) hrest⟩
  | freeze _ ih =>
    obtain ⟨keep, operands, rfl, hkeep, hone⟩ := split_pending hlen
    obtain ⟨e, rfl⟩ := List.length_eq_one_iff.mp hone
    obtain ⟨hkept, hlast⟩ := List.forall_mem_append.mp hpending
    have he := hlast e (List.mem_singleton_self e)
    -- the same value, now with the offset of the instruction
    have hfrozen : Pending f (.mk offset e.val) := ⟨he.notLet, he.single⟩
    obtain ⟨more, left, hleft, hrest⟩ := ih (length_concat hkeep (.mk offset e.val))
      (List.forall_mem_append.mpr ⟨hkept, fun _ hmem => List.mem_singleton.mp hmem ▸ hfrozen⟩)
      (offset + 1)
    exact ⟨more, left, hleft, (does_freeze he offset).value hrest⟩
  | store hindex _ ih =>
    obtain ⟨keep, operands, rfl, rfl, hone⟩ := split_pending hlen
    obtain ⟨e, rfl⟩ := List.length_eq_one_iff.mp hone
    obtain ⟨hkept, hlast⟩ := List.forall_mem_append.mp hpending
    have he := hlast e (List.mem_singleton_self e)
    obtain ⟨more, left, hleft, hrest⟩ := ih List.length_nil (nothing_pending f) (offset + 1)
    rw [← Nat.zero_add keep.length] at hrest
    exact ⟨_, left, hleft, (does_store hindex he.notLet offset).statement hkept hrest⟩
  | @value c m n c' m' opcode head code hhead harity hunpack _ ih =>
    obtain ⟨keep, operands, rfl, hkeep, hn⟩ := split_pending hlen
    obtain ⟨hkept, _⟩ := List.forall_mem_append.mp hpending
    have hstore := notStore_of_value harity
    have hmake := head_makes hhead harity hstore hunpack
    -- the last `n` values become one
    have he : Pending f (.mk offset (head.exp operands)) :=
      pending_of_head hhead (hn ▸ harity) hunpack (hmake.notLet operands) offset
    obtain ⟨more, left, hleft, hrest⟩ := ih (length_concat hkeep (.mk offset (head.exp operands)))
      (List.forall_mem_append.mpr ⟨hkept, fun _ hmem => List.mem_singleton.mp hmem ▸ he⟩)
      (offset + 1)
    exact ⟨more, left, hleft, (does_head hhead harity hunpack hstore hn offset).value hrest⟩
  | @statement c m c' m' opcode head a code hhead harity _ hunpack hstore _ ih =>
    obtain ⟨keep, operands, rfl, rfl, hn⟩ := split_pending hlen
    obtain ⟨hkept, _⟩ := List.forall_mem_append.mp hpending
    obtain ⟨more, left, hleft, hrest⟩ := ih List.length_nil (nothing_pending f) (offset + 1)
    exact ⟨_, left, hleft, (does_head hhead harity hunpack hstore hn offset).statement hkept hrest⟩
  | @unpack c m c' m' opcode head stores code hhead harity hunpack hstores hlocals _ ih =>
    obtain ⟨keep, operands, rfl, rfl, hone⟩ := split_pending hlen
    obtain ⟨e, rfl⟩ := List.length_eq_one_iff.mp hone
    obtain ⟨hkept, _⟩ := List.forall_mem_append.mp hpending
    obtain ⟨more, left, hleft, hrest⟩ :=
      ih List.length_nil (nothing_pending f) (offset + (opcode :: stores).length)
    rw [← Nat.zero_add keep.length] at hrest
    have hdoes := does_unpack hhead hunpack harity hstores hlocals offset e
    exact ⟨_, left, hleft, hdoes.statement hkept hrest⟩

end

section
variable {f : Function} {opcode : Bytecode} {a : Arity} {code : List Bytecode} {c : ℕ}

theorem head_of_arity (harity : arity f.unit f.locals.length f.retLen opcode = some a)
    (hmoves : opcode ≠ .Pop ∧ opcode ≠ .Nop ∧ opcode ≠ .FreezeRef)
    (hliteral : ∀ index, opcode = .LdConst index → (f.literal index).isSome) :
    ∃ head, f.head opcode = some head := by
  -- an instruction with a stack effect names entries that exist, and these make its head
  have hlocal : ∀ {index a' a} (make : Local → Head), ifLocal f.locals.length index a' = some a →
      ∃ head, (f.locals[index]?).map make = some head := by
    intro index a' a make h
    have hlt := (Option.ite_none_right_eq_some.mp h).1
    exact ⟨make f.locals[index], by rw [List.getElem?_eq_getElem hlt, Option.map_some]⟩
  have hstruct : ∀ {index a' a} (kind : BuildIn) (typeParams : Option ℕ),
      ifStruct f.unit index a' = some a → ∃ head, f.buildIn kind index typeParams = some head := by
    intro index a' a kind typeParams h
    obtain ⟨_, d, hd⟩ := structDef_of_arity f h
    exact ⟨_, by rw [Function.buildIn, hd, Option.map_some]⟩
  have hgeneric : ∀ {index a' a} (kind : BuildIn),
      ((structOf f.unit index).bind fun d => ifStruct f.unit d a') = some a →
        ∃ head, f.buildInGeneric kind index = some head := by
    intro index a' a kind h
    obtain ⟨handle, hhandle, h⟩ := Option.bind_eq_some_iff.mp h
    obtain ⟨inst, hinst, rfl⟩ := Option.map_eq_some_iff.mp hhandle
    rw [Function.buildInGeneric, hinst, Option.bind_some]
    exact hstruct kind _ h
  have hfields : ∀ {index n} (make : StructName → List FType → List String → Head)
      (typeParams : Option ℕ), fieldCount f.unit index = some n →
        ∃ head, f.structHead make index typeParams = some head := by
    intro index n make typeParams h
    obtain ⟨d, names, hd, hnames, _⟩ := fields_of_count f h
    exact ⟨_, by rw [Function.structHead, hd, Option.bind_some, hnames, Option.map_some]⟩
  have hfieldsGeneric : ∀ {index n} (make : StructName → List FType → List String → Head),
      (structOf f.unit index).bind (fieldCount f.unit) = some n →
        ∃ head, f.structHeadGeneric make index = some head := by
    intro index n make h
    obtain ⟨handle, hhandle, h⟩ := Option.bind_eq_some_iff.mp h
    obtain ⟨inst, hinst, rfl⟩ := Option.map_eq_some_iff.mp hhandle
    rw [Function.structHeadGeneric, hinst, Option.bind_some]
    exact hfields make _ h
  have hfield : ∀ {index} (isMut : Bool), hasField f.unit index = some () →
      ∃ head, f.fieldHead isMut index = some head := by
    intro index isMut h
    simp only [hasField, Option.bind_eq_some_iff, Option.map_eq_some_iff] at h
    obtain ⟨field, hfield, d, hd, names, hnames, name, hname, _⟩ := h
    exact ⟨.FieldRef isMut name, by
      simp only [Function.fieldHead, hfield, hd, hnames, hname, Option.bind_some, Option.map_some]⟩
  obtain ⟨hpop, hnop, hfreeze⟩ := hmoves
  cases opcode
  case Pop => exact absurd rfl hpop
  case Nop => exact absurd rfl hnop
  case FreezeRef => exact absurd rfl hfreeze
  case BrTrue | BrFalse | Branch => cases harity
  case CopyLoc | MoveLoc | StLoc | MutBorrowLoc | ImmBorrowLoc => exact hlocal _ harity
  case Exists | MoveFrom | MoveTo | ImmBorrowGlobal | MutBorrowGlobal => exact hstruct _ _ harity
  case ExistsGeneric | MoveFromGeneric | MoveToGeneric | ImmBorrowGlobalGeneric
      | MutBorrowGlobalGeneric => exact hgeneric _ harity
  case Pack | Unpack =>
    obtain ⟨n, hn, _⟩ := Option.map_eq_some_iff.mp harity
    exact hfields _ _ hn
  case PackGeneric | UnpackGeneric =>
    obtain ⟨n, hn, _⟩ := Option.map_eq_some_iff.mp harity
    exact hfieldsGeneric _ hn
  case MutBorrowField | ImmBorrowField =>
    obtain ⟨_, hf, _⟩ := Option.map_eq_some_iff.mp harity
    exact hfield _ hf
  case MutBorrowFieldGeneric index | ImmBorrowFieldGeneric index =>
    obtain ⟨_, hf, _⟩ := Option.map_eq_some_iff.mp harity
    obtain ⟨handle, hhandle, hf⟩ := Option.bind_eq_some_iff.mp hf
    obtain ⟨inst, hinst, rfl⟩ := Option.map_eq_some_iff.mp hhandle
    change ∃ head, f.fieldHeadGeneric _ index = some head
    rw [Function.fieldHeadGeneric, hinst, Option.bind_some]
    exact hfield _ hf
  case LdConst index =>
    obtain ⟨ld, hld⟩ := Option.isSome_iff_exists.mp (hliteral index rfl)
    exact ⟨.Ld ld, congrArg (Option.map Head.Ld) hld⟩
  all_goals exact ⟨_, rfl⟩

theorem storesThenPops_take {discards : Bool} {k : ℕ}
    (h : storesThenPops discards k code = true) :
    (code.take k).length = k ∧ storesThenPops discards k (code.take k) = true := by
  induction k generalizing discards code with
  | zero => exact ⟨rfl, rfl⟩
  | succ k ih =>
    obtain ⟨opcode, code, rfl, hop⟩ := storesThenPops_cons h
    rw [List.take_succ_cons, List.length_cons]
    rcases hop with ⟨index, rfl, rfl, hrest⟩ | ⟨rfl, hrest⟩
    · exact ⟨congrArg (· + 1) (ih hrest).1, (ih hrest).2⟩
    · exact ⟨congrArg (· + 1) (ih hrest).1, (ih hrest).2⟩

theorem isUnpack_of_count {k : ℕ} (h : unpackCount f.unit opcode = some k) : opcode.isUnpack := by
  cases opcode
  case Unpack | UnpackGeneric => rfl
  all_goals cases h

theorem isUnpack_of_none (harity : arity f.unit f.locals.length f.retLen opcode = some a)
    (h : unpackCount f.unit opcode = none) : opcode.isUnpack = false := by
  cases opcode
  case Unpack | UnpackGeneric =>
    obtain ⟨n, hn, _⟩ := Option.map_eq_some_iff.mp harity
    exact absurd (hn.symm.trans h) (Option.some_ne_none n)
  all_goals rfl

theorem Settles.cast {c' m m' : ℕ} (h : Settles f c m code 0 0) (hc : c = c') (hm : m = m') :
    Settles f c' m' code 0 0 := hc ▸ hm ▸ h

theorem settles_of_orderly {o : ℕ} {stack : List Value} {popped : List (List Value)}
    (hliteral : ∀ index, .LdConst index ∈ code → (f.literal index).isSome)
    (hbalanced : takes f.unit f.locals.length f.retLen o code stack = some popped)
    (horderly : orderly f 0 c code = true) (hc : c ≤ stack.length) :
    Settles f c (stack.length - c) code 0 0 := by
  induction hn : code.length using Nat.strong_induction_on generalizing o c code stack popped with
  | _ n ih =>
    subst hn
    cases code with
    | nil =>
      have hnil : stack = [] := by
        unfold takes at hbalanced
        exact (Option.ite_none_right_eq_some.mp hbalanced).1
      subst hnil
      obtain rfl := Nat.le_zero.mp hc
      exact .done
    | cons opcode code =>
      obtain ⟨a, later, harity, hpops, hlater, _⟩ := takes_cons hbalanced
      have hrest : ∀ index, .LdConst index ∈ code → (f.literal index).isSome :=
        fun index hmem => hliteral index (List.mem_cons_of_mem _ hmem)
      by_cases hpop : opcode = .Pop
      -- a discard may take a statement, and ends the row of values
      · subst hpop
        cases harity
        have hlen : (stack.drop 1).length = stack.length - 1 := List.length_drop
        have hsettles := ih code.length (Nat.lt_succ_self _) hrest hlater
          (by simpa [orderly] using horderly) (Nat.zero_le _) rfl
        rw [Nat.sub_zero] at hsettles
        refine .pop ?_ hsettles
        change c + (stack.length - c) = (stack.drop 1).length + 1
        have : 1 ≤ stack.length := hpops
        omega
      rw [orderly, if_neg hpop] at horderly
      cases hcount : unpackCount f.unit opcode with
      | some k =>
        -- the stores and discards are taken along, and the induction goes on behind them
        obtain rfl := arity_of_unpack harity hcount
        simp only [hcount, Bool.and_eq_true, decide_eq_true_eq] at horderly
        obtain ⟨⟨hone, hstores⟩, horderly⟩ := horderly
        obtain ⟨hlen, htake⟩ := storesThenPops_take hstores
        rw [orderly_skip] at horderly
        obtain ⟨hvalues, _⟩ := takes_fields hstores (by simp [pushed]) hlater
        have hmoves : opcode ≠ .Nop ∧ opcode ≠ .FreezeRef := by
          constructor <;> (rintro rfl; cases hcount)
        obtain ⟨head, hhead⟩ := head_of_arity harity ⟨hpop, hmoves⟩
          fun index heq => hliteral index (heq ▸ List.mem_cons_self)
        have hsettles := ih (code.drop k).length (by rw [List.length_drop, List.length_cons]; omega)
          (fun index hmem => hrest index (List.mem_of_mem_drop hmem)) hvalues horderly
          (Nat.zero_le _) rfl
        have hlocals : ∀ index, .StLoc index ∈ code.take k → index < f.locals.length := by
          intro index hmem
          obtain ⟨_, ha⟩ := takes_arity hlater _ (List.mem_of_mem_take hmem)
          exact (Option.ite_none_right_eq_some.mp ha).1
        obtain ⟨c, rfl⟩ := Nat.exists_eq_add_of_le' hone
        have hsize : (stack.drop 1).length - 0 = c + (stack.length - (c + 1)) := by
          rw [List.length_drop]
          omega
        rw [hsize] at hsettles
        rw [← hlen] at harity
        have hall := Settles.unpack hhead harity (isUnpack_of_count hcount) (by rwa [hlen]) hlocals
          hsettles
        rwa [List.take_append_drop] at hall
      | none =>
        obtain ⟨pops, pushes⟩ := a
        simp only [hcount, harity, Bool.and_eq_true, decide_eq_true_eq] at horderly hpops hlater
        obtain ⟨hle, horderly⟩ := horderly
        have hunpack := isUnpack_of_none harity hcount
        have hlen : (pushed o pushes ++ stack.drop pops).length = pushes + (stack.length - pops) := by
          simp [pushed]
        have hsettles := ih code.length (Nat.lt_succ_self _) hrest hlater horderly
          (by rw [hlen]; split <;> omega) rfl
        rw [hlen] at hsettles
        obtain ⟨c, rfl⟩ := Nat.exists_eq_add_of_le' hle
        rw [Nat.add_sub_cancel] at hsettles
        by_cases hnop : opcode = .Nop
        · subst hnop
          cases harity
          rw [if_neg Nat.zero_ne_one] at hsettles
          exact .nop (hsettles.cast rfl (by omega))
        by_cases hfreeze : opcode = .FreezeRef
        · subst hfreeze
          cases harity
          rw [if_pos rfl] at hsettles
          exact .freeze (hsettles.cast rfl (by omega))
        obtain ⟨head, hhead⟩ := head_of_arity harity ⟨hpop, hnop, hfreeze⟩
          fun index heq => hliteral index (heq ▸ List.mem_cons_self)
        -- a value lengthens the row of values, a statement ends it
        by_cases hone : pushes = 1
        · subst hone
          rw [if_pos rfl] at hsettles
          exact .value hhead harity hunpack (hsettles.cast rfl (by omega))
        · rw [if_neg hone] at hsettles
          by_cases hstore : opcode.isStore
          · obtain ⟨index, rfl⟩ := exists_of_isStore hstore
            have hindex := (Option.ite_none_right_eq_some.mp harity).1
            cases arity_of_field harity (.inl ⟨index, rfl⟩)
            exact .store hindex (hsettles.cast rfl (by omega))
          · exact .statement hhead harity hone hunpack (by simpa using hstore)
              (hsettles.cast rfl (by dsimp only; omega))

end

section
variable {V σ ε : Type} {f : Function} (I : Interpretation f V σ ε) {opcode : Bytecode}
  {body code : List Bytecode} {stack : List V} {s : σ} {o steps : ℕ}

theorem turn_step (hop : body[o]? = some opcode) (hbranch : opcode.offset = none) :
    I.turn body ⟨o, stack, s⟩ =
      I.step opcode stack s >>= fun r => pure (.again ⟨o + 1, r.1, r.2⟩) := by
  unfold turn
  rw [hop]
  cases opcode
  case BrTrue | BrFalse | Branch => cases hbranch
  all_goals rfl

theorem turn_end (hop : body[o]? = none) : I.turn body ⟨o, stack, s⟩ = pure (.leave (stack, s)) := by
  unfold turn
  rw [hop]

theorem loop_exec (hbranch : ∀ opcode ∈ code, opcode.offset = none) (hcode : body.drop o = code)
    (hsteps : code.length < steps) :
    Attempt.loop (I.turn body) steps ⟨o, stack, s⟩ = I.exec code stack s := by
  induction code generalizing o stack s steps with
  | nil =>
    obtain ⟨n, rfl⟩ := Nat.exists_eq_add_of_lt hsteps
    have hnone : body[o]? = none := by rw [← List.head?_drop, hcode, List.head?_nil]
    exact loop_leave (turn_end I hnone)
  | cons opcode code ih =>
    obtain ⟨hop, hrest⟩ := List.forall_mem_cons.mp hbranch
    obtain ⟨n, rfl⟩ := Nat.exists_eq_add_of_lt hsteps
    have hat : body[o]? = some opcode := by rw [← List.head?_drop, hcode, List.head?_cons]
    have htail : body.drop (o + 1) = code := by rw [← List.tail_drop, hcode, List.tail_cons]
    have hturn : I.turn body ⟨o, stack, s⟩ = _ := turn_step I hat hop
    rw [exec_cons, Program.bind_apply, List.length_cons]
    rcases hr : I.step opcode stack s with _ | e | r
    all_goals rw [hr] at hturn
    · exact loop_of_stuck hturn
    · exact loop_error hturn
    · rw [loop_again hturn]
      exact ih hrest htail (by omega)

theorem step_gives {head : Head} {a : Arity} (hhead : f.head opcode = some head)
    (harity : arity f.unit f.locals.length f.retLen opcode = some a) (hle : a.pops ≤ stack.length) :
    (I.step opcode stack).Gives fun stack' =>
      stack'.length = a.pushes + (stack.length - a.pops) := by
  have hlen : (stack.take a.pops).reverse.length = a.pops := by
    rw [List.length_reverse, List.length_take, Nat.min_eq_left hle]
  have hstep : I.step opcode (_ ++ stack.drop a.pops) = _ := step_head I hhead harity hlen
  rw [List.reverse_reverse, List.take_append_drop] at hstep
  rw [hstep]
  refine (perform_gives I hhead harity _).bind fun rs hrs => Program.gives_pure ?_
  rw [List.length_append, List.length_reverse, hrs, List.length_drop]

theorem Settles.gives {c m c' m' : ℕ} (h : Settles f c m code c' m') (hlen : stack.length = c + m) :
    (I.exec code stack).Gives fun stack' => stack'.length = c' + m' := by
  induction h generalizing stack with
  | done => exact Program.gives_pure hlen
  | nop _ ih =>
    have hstep : I.step .Nop stack = pure stack := rfl
    rw [exec_cons, hstep, pure_bind]
    exact ih (by omega)
  | pop hn _ ih =>
    obtain ⟨v, stack, rfl⟩ := List.exists_cons_of_length_eq_add_one (hlen.trans hn)
    have hstep : I.step .Pop (v :: stack) = pure stack := rfl
    rw [List.length_cons] at hlen
    rw [exec_cons, hstep, pure_bind]
    exact ih (by omega)
  | @freeze c m c' m' _ _ ih =>
    have hpos : stack.length = (c + m) + 1 := by omega
    obtain ⟨v, stack, rfl⟩ := List.exists_cons_of_length_eq_add_one hpos
    have hstep : I.step .FreezeRef (v :: stack) = pure (v :: stack) := rfl
    rw [exec_cons, hstep, pure_bind]
    exact ih hlen
  | store hindex _ ih =>
    obtain ⟨hhead, harity⟩ := head_store hindex
    refine (step_gives I hhead harity (by dsimp only; omega)).bind fun stack' hstack' => ih ?_
    dsimp only at hstack'
    omega
  | value hhead harity _ _ ih =>
    refine (step_gives I hhead harity (by dsimp only; omega)).bind fun stack' hstack' => ih ?_
    dsimp only at hstack'
    omega
  | statement hhead harity _ _ _ _ ih =>
    refine (step_gives I hhead harity (by omega)).bind fun stack' hstack' => ih ?_
    omega
  | @unpack c m c' m' opcode head stores code hhead harity _ hstores hlocals _ ih =>
    rw [exec_cons]
    refine (step_gives I hhead harity (by dsimp only; omega)).bind fun stack' hstack' => ?_
    dsimp only at hstack'
    -- the values of the fields are the ones that the stores take
    have htake : (stack'.take stores.length).length = stores.length := by
      rw [List.length_take]
      omega
    have hexec := exec_stores I hstores hlocals htake 0 (stack'.drop stores.length)
    rw [List.take_append_drop] at hexec
    rw [exec_append, hexec, bind_assoc]
    refine Program.gives_true.bind fun _ _ => ?_
    rw [pure_bind]
    apply ih
    rw [List.length_drop]
    omega

theorem notBranch_of_arity {a : Arity}
    (harity : arity f.unit f.locals.length f.retLen opcode = some a) : opcode.offset = none := by
  cases opcode
  case BrTrue | BrFalse | Branch => cases harity
  all_goals rfl

end

/-- Orderly code without branches is translated to statements that do what the machine does: with
the same effects in the same order, and with the same end. -/
theorem straight_line_preserved (f : Function) {V σ ε : Type} (I : Interpretation f V σ ε)
    {popped : List (List Value)} {fuel : ℕ}
    (hbalanced : takes f.unit f.locals.length f.retLen 0 f.code [] = some popped)
    (horderly : orderly f 0 0 f.code = true)
    (hliteral : ∀ index, .LdConst index ∈ f.code → (f.literal index).isSome)
    (hfuel : f.code.length < fuel) :
    ∃ t, translate f fuel (bodyTranslator f) = .ok t ∧
      ∀ steps loops s, f.code.length < steps →
        I.run f.code steps s =
          I.statements loops t.expressions s >>= fun r => pure ([], r.2) := by
  have hsettles := settles_of_orderly hliteral hbalanced horderly (Nat.le_refl 0)
  -- the code leaves nothing on the stack, so nothing waits for a statement at the end
  obtain ⟨more, left, hleft, hmeans⟩ := hsettles.means List.length_nil (nothing_pending f) 0
  obtain rfl := List.length_eq_zero_iff.mp hleft
  have hturns := hmeans.turns []
  rw [List.append_nil, List.append_nil] at hturns
  obtain ⟨t, ht, hexp⟩ := Turns.wholeBody hturns hfuel
  -- the code has no branches, so the machine runs it instruction by instruction
  have hbranch : ∀ opcode ∈ f.code, opcode.offset = none := by
    intro opcode hmem
    obtain ⟨a, ha⟩ := takes_arity hbalanced opcode hmem
    exact notBranch_of_arity ha
  have hmeaning : ∀ steps loops s, f.code.length < steps →
      I.run f.code steps s = I.statements loops more s >>= fun r => pure ([], r.2) := by
    intro steps loops s hlt
    have hrun : I.run f.code steps s = I.exec f.code [] s := loop_exec I hbranch rfl hlt
    have hempty : I.exec f.code [] = I.statements loops more >>= fun _ => pure [] := by
      have hmeaning := hmeans.meaning I loops [] rfl
      simp only [values_nil, pure_bind, List.reverse_nil, List.nil_append, List.length_nil,
        List.take_zero] at hmeaning
      rw [← hmeaning]
      conv_lhs => rw [← bind_pure (I.exec f.code [])]
      refine (hsettles.gives I rfl).bind_congr fun stack hstack => ?_
      rw [List.length_eq_zero_iff.mp hstack]
    rw [hrun, hempty]
    rfl
  exact ⟨t, ht, hexp ▸ hmeaning⟩

/-- Numbers in locals. Every other operation ends the run. -/
def calculate : Head → List ℕ → List (Local × ℕ) → Except Unit (List ℕ × List (Local × ℕ))
  | .Ld (.U64 n), _, s => .ok ([n], s)
  | .Local _ l, _, s =>
    match s.lookup l with
    | some n => .ok ([n], s)
    | none => .error ()
  | .BinaryOp .Add, [m, n], s => .ok ([m + n], s)
  | .BinaryOp .Lt, [m, n], s => .ok ([if m < n then 1 else 0], s)
  | .Let l, [n], s => .ok ([], (l, n) :: s)
  | _, _, _ => .error ()

theorem calculate_pushes {head : Head} {vs : List ℕ} {s : List (Local × ℕ)}
    {r : List ℕ × List (Local × ℕ)} (h : calculate head vs s = .ok r) :
    head.pushes = some r.1.length ∧ ∀ name typeParams names,
      head ≠ .Unpack name typeParams names := by
  unfold calculate at h
  split at h
  case h_2 =>
    split at h
    · cases h
      exact ⟨rfl, fun _ _ _ h => by cases h⟩
    · cases h
  case h_6 => cases h
  all_goals
    cases h
    exact ⟨rfl, fun _ _ _ h => by cases h⟩

def arithmetic (f : Function) : Interpretation f ℕ (List (Local × ℕ)) Unit where
  act := calculate
  truth n := n ≠ 0
  pushes {opcode _ _ _ _ _} hhead harity hact := by
    obtain ⟨hpushes, hnot⟩ := calculate_pushes hact
    cases hunpack : opcode.isUnpack with
    | true =>
      obtain ⟨_, _, _, _, _, _, heq, _⟩ := head_isUnpack hhead hunpack harity
      exact absurd heq (hnot _ _ _)
    | false => exact ((head_arity hhead harity hunpack).2 _ hpushes).symm

/-- `let x = 1 + 2` -/
def sumScript : Function := scriptOf [.LdU64 1, .LdU64 2, .Add, .StLoc 0]

theorem sumScript_preserved : ∃ t, translate sumScript 5 (bodyTranslator sumScript) = .ok t ∧
    ∀ steps loops s, 4 < steps → (arithmetic sumScript).run sumScript.code steps s =
      (arithmetic sumScript).statements loops t.expressions s >>= fun r => pure ([], r.2) :=
  straight_line_preserved sumScript (arithmetic sumScript) rfl rfl
    (fun _ h => by simp [sumScript, scriptOf] at h) (by decide)

example : (arithmetic sumScript).run sumScript.code 5 [] = result (.ok ([], [(.Var 0, 3)])) := rfl

end MoveTools.Disassembler
