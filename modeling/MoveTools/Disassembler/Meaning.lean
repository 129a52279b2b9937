import MoveTools.Disassembler.Settled

namespace MoveTools.Disassembler

open Attempt Interpretation

/-! The expressions that are built for settled code mean what the code does on the stack. -/

section
variable {V σ ε : Type} {f : Function} (I : Interpretation f V σ ε) {opcode : Bytecode} {head : Head}
  {a : Arity} {code code' stores : List Bytecode} {vs rest : List V} {fuel offset : ℕ}

theorem perform_gives (hhead : f.head opcode = some head)
    (harity : arity f.unit f.locals.length f.retLen opcode = some a) (vs : List V) :
    (I.perform head vs).Gives fun rs => rs.length = a.pushes := by
  intro s r hr
  unfold perform at hr
  split at hr
  case h_1 r' hact =>
    cases Option.some.inj hr
    exact I.pushes hhead harity hact
  case h_2 => cases hr

theorem step_head (hhead : f.head opcode = some head)
    (harity : arity f.unit f.locals.length f.retLen opcode = some a) (hvs : vs.length = a.pops) :
    I.step opcode (vs.reverse ++ rest) =
      I.perform head vs >>= fun rs => pure (rs.reverse ++ rest) := by
  have hlen : vs.reverse.length = a.pops := by rw [List.length_reverse, hvs]
  have hle : a.pops ≤ (vs.reverse ++ rest).length := by
    rw [List.length_append, hlen]
    exact Nat.le_add_right _ _
  unfold step
  split
  case h_1 | h_2 | h_3 => cases hhead
  case h_4 =>
    rw [hhead, harity]
    dsimp only
    rw [if_pos hle, List.take_left' hlen, List.drop_left' hlen, List.reverse_reverse]

theorem exec_cons (opcode : Bytecode) (code : List Bytecode) (stack : List V) :
    I.exec (opcode :: code) stack = I.step opcode stack >>= I.exec code := rfl

theorem exec_append (code code' : List Bytecode) (stack : List V) :
    I.exec (code ++ code') stack = I.exec code stack >>= I.exec code' := by
  induction code generalizing stack with
  | nil => exact (pure_bind stack (I.exec code')).symm
  | cons opcode code ih =>
    rw [List.cons_append, exec_cons, exec_cons, bind_assoc]
    exact congrArg _ (funext fun stack => ih stack)

theorem head_store {index : ℕ} (hindex : index < f.locals.length) :
    f.head (.StLoc index) = some (.Let f.locals[index]) ∧
      arity f.unit f.locals.length f.retLen (.StLoc index) = some ⟨1, 0⟩ := by
  refine ⟨?_, if_pos hindex⟩
  rw [Function.head, List.getElem?_eq_getElem hindex, Option.map_some]

theorem step_store {index : ℕ} (hindex : index < f.locals.length) (v : V) (rest : List V) :
    I.step (.StLoc index) (v :: rest) =
      I.perform (.Let f.locals[index]) [v] >>= fun _ => pure rest := by
  obtain ⟨hhead, harity⟩ := head_store hindex
  have hone : [v].length = (⟨1, 0⟩ : Arity).pops := rfl
  refine (step_head I hhead harity hone).trans
    ((perform_gives I hhead harity [v]).bind_congr fun rs hrs => ?_)
  rw [List.length_eq_zero_iff.mp hrs]
  rfl

theorem exec_stores {discards : Bool}
    (hstores : storesThenPops discards stores.length stores = true)
    (hlocals : ∀ index, .StLoc index ∈ stores → index < f.locals.length)
    (hvs : vs.length = stores.length) (offset : ℕ) (rest : List V) :
    I.exec stores (vs ++ rest) =
      I.bindFields (f.fieldsAt offset stores) vs >>= fun _ => pure rest := by
  induction stores generalizing discards vs offset with
  | nil =>
    rw [List.length_eq_zero_iff.mp hvs]
    rfl
  | cons opcode stores ih =>
    obtain ⟨v, vs, rfl⟩ := List.exists_cons_of_length_eq_add_one hvs
    have hrest : ∀ index, .StLoc index ∈ stores → index < f.locals.length :=
      fun index hmem => hlocals index (List.mem_cons_of_mem _ hmem)
    have hlen := Nat.succ.inj hvs
    obtain ⟨_, _, heq, hop⟩ := storesThenPops_cons hstores
    cases heq
    rcases hop with ⟨index, rfl, -, hstores'⟩ | ⟨rfl, hstores'⟩
    · have hindex := hlocals index List.mem_cons_self
      rw [exec_cons, List.cons_append, step_store I hindex, Function.fieldsAt,
        List.getElem?_eq_getElem hindex, Option.getD_some, bindFields, bindField, bind_assoc,
        bind_assoc, bind_assoc]
      simp only [pure_bind]
      rw [ih hstores' hrest hlen (offset + 1)]
    · have hpop : I.exec (.Pop :: stores) (v :: vs ++ rest) = I.exec stores (vs ++ rest) :=
        pure_bind _ _
      have hbind : I.bindFields (f.fieldsAt offset (.Pop :: stores)) (v :: vs) =
          I.bindFields (f.fieldsAt (offset + 1) stores) vs := pure_bind _ _
      rw [hpop, hbind, ih hstores' hrest hlen (offset + 1)]

end

/-- Whatever the operations mean, the expression is one value; it is not a binding. -/
structure Pending (f : Function) (e : ExpLoc) : Prop where
  notLet : e.val.isLet = false
  single : ∀ {V σ ε : Type} (I : Interpretation f V σ ε) (fuel : ℕ),
    (I.eval fuel e.val).Gives fun vs => vs.length = 1

theorem nothing_pending (f : Function) : ∀ e ∈ ([] : List ExpLoc), Pending f e :=
  fun _ h => absurd h List.not_mem_nil

section
variable {V σ ε : Type} {f : Function} (I : Interpretation f V σ ε) {opcode : Bytecode} {head : Head}
  {a : Arity} {fuel offset : ℕ} {es : List ExpLoc} {e : ExpLoc}

theorem evalLoc_of_pending (h : Pending f e) :
    I.evalLoc fuel e = I.value fuel e >>= fun v => pure [v] := by
  rw [evalLoc_eq, value_eq, bind_assoc]
  conv_lhs => rw [← bind_pure (I.eval fuel e.val)]
  apply (h.single I fuel).bind_congr
  intro vs hvs
  obtain ⟨v, rfl⟩ := List.length_eq_one_iff.mp hvs
  exact (pure_bind v fun v => pure [v]).symm

theorem statements_of_pending (h : ∀ e ∈ es, Pending f e) :
    I.statements fuel es = I.values fuel es >>= fun _ => pure () := by
  induction es with
  | nil => rfl
  | cons e es ih =>
    obtain ⟨he, hes⟩ := List.forall_mem_cons.mp h
    have hcons : I.statements fuel (e :: es) =
        I.evalLoc fuel e >>= fun _ => I.statements fuel es := rfl
    rw [hcons, evalLoc_of_pending I he, ih hes, values_cons]
    simp only [bind_assoc, pure_bind]

theorem pending_of_head {es : List ExpLoc} (hhead : f.head opcode = some head)
    (harity : arity f.unit f.locals.length f.retLen opcode = some ⟨es.length, 1⟩)
    (hunpack : opcode.isUnpack = false) (hlet : (head.exp es).isLet = false) (offset : ℕ) :
    Pending f (.mk offset (head.exp es)) where
  notLet := hlet
  single I fuel := by
    have hfits : head.Fits es.length := (head_arity hhead harity hunpack).1
    rw [val_mk, eval_exp I fuel hfits]
    exact Program.gives_true.bind fun vs _ => perform_gives I hhead harity vs

end

/-- `code` makes `e` of its operands, and does with their values what `e` does. -/
structure Does (f : Function) (offset : ℕ) (code : List Bytecode) (operands : List ExpLoc)
    (e : ExpLoc) (pushes : ℕ) : Prop where
  turns : ∀ left, Turns f offset code (left ++ operands) (left ++ [e])
  meaning : ∀ {V σ ε : Type} (I : Interpretation f V σ ε) (fuel : ℕ),
    ∃ act : List V → Program σ ε (List V),
      I.evalLoc fuel e = I.values fuel operands >>= act ∧
      ∀ vs : List V, vs.length = operands.length →
        (act vs).Gives (fun rs => rs.length = pushes) ∧
        ∀ rest, I.exec code (vs.reverse ++ rest) = act vs >>= fun rs => pure (rs.reverse ++ rest)

section
variable {V σ ε : Type} {f : Function} {opcode : Bytecode} {head : Head} {a : Arity}
  {code stores : List Bytecode} {operands es : List ExpLoc} {e : ExpLoc} {offset index : ℕ}

theorem exec_single (I : Interpretation f V σ ε) (opcode : Bytecode) (stack : List V) :
    I.exec [opcode] stack = I.step opcode stack := bind_pure _

theorem Does.of_head (hhead : f.head opcode = some head)
    (harity : arity f.unit f.locals.length f.retLen opcode = some a)
    (hunpack : opcode.isUnpack = false) (hlen : operands.length = a.pops)
    (hturns : ∀ left, Turns f offset [opcode] (left ++ operands)
      (left ++ [.mk offset (head.exp operands)])) :
    Does f offset [opcode] operands (.mk offset (head.exp operands)) a.pushes where
  turns := hturns
  meaning I fuel := by
    have hfits : head.Fits operands.length := hlen ▸ (head_arity hhead harity hunpack).1
    refine ⟨I.perform head, eval_exp I fuel hfits, fun vs hvs =>
      ⟨perform_gives I hhead harity vs, fun rest => ?_⟩⟩
    rw [exec_single, step_head I hhead harity (hvs.trans hlen)]

theorem does_head (hhead : f.head opcode = some head)
    (harity : arity f.unit f.locals.length f.retLen opcode = some a)
    (hunpack : opcode.isUnpack = false) (hstore : opcode.isStore = false)
    (hlen : operands.length = a.pops) (offset : ℕ) :
    Does f offset [opcode] operands (.mk offset (head.exp operands)) a.pushes := by
  have hpop : opcode ≠ .Pop := by
    rintro rfl
    cases hhead
  have hoperands := hlen.trans (operands_eq harity hpop hunpack).symm
  exact .of_head hhead harity hunpack hlen
    ((head_makes hhead harity hstore hunpack).makes.turns hoperands offset)

theorem does_store (hindex : index < f.locals.length) (he : e.val.isLet = false) (offset : ℕ) :
    Does f offset [.StLoc index] [e] (.mk offset (.Let f.locals[index] e)) 0 := by
  obtain ⟨hhead, harity⟩ := head_store hindex
  refine .of_head hhead harity rfl rfl fun left => ?_
  have h := store_exp_turns hindex offset (left ++ [e])
  rwa [storeOperand_last he] at h

theorem does_nop (f : Function) (offset : ℕ) : Does f offset [.Nop] [] (.mk offset .Nop) 0 where
  turns left := .single fun _ t _ _ hexp => ⟨⟨[], .Nop⟩, t, fun _ => rfl, .refl t, by
    rw [hexp, List.append_nil]⟩
  meaning I fuel := by
    refine ⟨fun _ => pure [], (pure_bind _ _).symm, fun vs hvs => ⟨Program.gives_pure rfl,
      fun rest => ?_⟩⟩
    rw [List.length_eq_zero_iff.mp hvs, exec_single, pure_bind]
    rfl

theorem does_freeze (h : Pending f e) (offset : ℕ) :
    Does f offset [.FreezeRef] [e] (.mk offset e.val) 1 where
  turns left := (freezeRef_makes f).turns rfl offset left
  meaning I fuel := by
    refine ⟨pure, ?_, fun vs hvs => ⟨Program.gives_pure hvs, fun rest => ?_⟩⟩
    · rw [bind_pure, values_singleton, ← evalLoc_of_pending I h]
      exact (evalLoc_eq I fuel e).symm
    · obtain ⟨v, rfl⟩ := List.length_eq_one_iff.mp hvs
      rw [exec_single, pure_bind]
      rfl

theorem eval_unpackExp (I : Interpretation f V σ ε) (fuel : ℕ) (hhead : f.head opcode = some head)
    (hunpack : opcode.isUnpack)
    (harity : arity f.unit f.locals.length f.retLen opcode = some ⟨1, es.length⟩) :
    I.eval fuel (unpackExp head es e) =
      I.value fuel e >>= fun v => I.perform head [v] >>= fun vs =>
        I.bindFields es vs.reverse >>= fun _ => pure [] := by
  obtain ⟨index, typeParams, d, names, _, _, rfl, hcount, _⟩ := head_isUnpack hhead hunpack harity
  have hlen : es.reverse.length = names.length := by
    rw [List.length_reverse]
    exact congrArg Arity.pushes hcount
  have hvalues := values_of_fields (Nat.le_of_eq hlen)
  simp only [unpackExp, eval, names_of_fields hlen, hvalues, List.reverse_reverse]

theorem does_unpack (hhead : f.head opcode = some head) (hunpack : opcode.isUnpack)
    (harity : arity f.unit f.locals.length f.retLen opcode = some ⟨1, stores.length⟩)
    (hstores : storesThenPops false stores.length stores = true)
    (hlocals : ∀ index, .StLoc index ∈ stores → index < f.locals.length) (offset : ℕ)
    (e : ExpLoc) :
    Does f offset (opcode :: stores) [e]
      (.mk (offset + stores.length) (unpackExp head (f.fieldsAt (offset + 1) stores) e)) 0 where
  turns left := unpackExp_turns hhead hunpack harity hstores hlocals offset left e
  meaning I fuel := by
    refine ⟨fun vs => I.perform head vs >>= fun vs =>
      I.bindFields (f.fieldsAt (offset + 1) stores) vs.reverse >>= fun _ => pure [], ?_,
      fun vs hvs => ⟨?_, fun rest => ?_⟩⟩
    · rw [values_singleton, bind_assoc]
      simp only [pure_bind]
      exact eval_unpackExp I fuel hhead hunpack (by rw [fieldsAt_length]; exact harity)
    · exact Program.gives_true.bind fun _ _ => Program.gives_true.bind fun _ _ =>
        Program.gives_pure rfl
    · rw [exec_cons, step_head I hhead harity hvs, bind_assoc, bind_assoc]
      refine (perform_gives I hhead harity vs).bind_congr fun rs hrs => ?_
      rw [pure_bind, exec_stores I hstores hlocals (by rw [List.length_reverse, hrs]) (offset + 1),
        bind_assoc]
      simp only [pure_bind, List.reverse_nil, List.nil_append]

end

end MoveTools.Disassembler
