import MoveTools.Dove.Calls

namespace MoveTools.Dove
open Syntax Attempt Index Compiler
open Executor (TypeTag)

/-! When the reading of a call ends. -/

section
variable {stop : Option Tok → Bool} {failure : Option String} {ts before after : List Token}
  {t : Token} {acc : Text}

/-! ### One argument -/

theorem tokenTurn_stop (l : Lexer) (h : stop l.peek = true) :
    tokenTurn stop (l, acc) = result (.ok (.leave (l, acc))) := if_pos h

theorem tokenTurn_pass {l l' : Lexer} (h : stop l.peek = false) (hl : l.advance = .ok l') :
    tokenTurn stop (l, acc) = result (.ok (.again (l', acc ++ l.content))) := by
  rw [tokenTurn, if_neg (by simp [h]), hl]
  rfl

theorem tokenTurn_error {l : Lexer} {e : String} (h : stop l.peek = false)
    (hl : l.advance = .error e) : tokenTurn stop (l, acc) = result (.error e) := by
  rw [tokenTurn, if_neg (by simp [h]), hl]
  rfl

theorem tokens_found (hbefore : ∀ x ∈ before, stop (some x.tok) = false)
    (ht : stop (some t.tok) = true) {fuel : ℕ} (hfuel : before.length < fuel) :
    loop (tokenTurn stop) fuel (⟨before ++ t :: after, failure⟩, acc) =
      result (.ok (⟨t :: after, failure⟩, acc ++ before.flatMap Token.content)) := by
  induction before generalizing fuel acc with
  | nil =>
    obtain ⟨k, rfl⟩ := Nat.exists_eq_add_of_lt hfuel
    rw [List.nil_append, loop_leave (tokenTurn_stop ⟨t :: after, failure⟩ ht), List.flatMap_nil,
      List.append_nil]
  | cons x before ih =>
    obtain ⟨hx, hbefore⟩ := List.forall_mem_cons.mp hbefore
    obtain ⟨k, rfl⟩ := Nat.exists_eq_add_of_lt hfuel
    have hadvance : Lexer.advance ⟨x :: (before ++ t :: after), failure⟩ =
        .ok ⟨before ++ t :: after, failure⟩ := Lexer.standing_append before t after failure
    rw [List.cons_append, loop_again (tokenTurn_pass hx hadvance),
      ih hbefore (by rw [List.length_cons]; omega), List.flatMap_cons, List.append_assoc]
    rfl

theorem tokens_failed {e : String} (hstop : stop none = false)
    (hts : ∀ x ∈ ts, stop (some x.tok) = false) {fuel : ℕ} (hfuel : ts.length < fuel) :
    loop (tokenTurn stop) fuel (⟨ts, some e⟩, acc) = result (.error e) := by
  induction ts generalizing fuel acc with
  | nil =>
    obtain ⟨k, rfl⟩ := Nat.exists_eq_add_of_lt hfuel
    exact loop_error (tokenTurn_error hstop rfl)
  | cons x ts ih =>
    obtain ⟨hx, hts⟩ := List.forall_mem_cons.mp hts
    obtain ⟨k, rfl⟩ := Nat.exists_eq_add_of_lt hfuel
    cases ts with
    | nil => exact loop_error (tokenTurn_error hx rfl)
    | cons y ts =>
      rw [loop_again (tokenTurn_pass hx rfl)]
      exact ih hts (by simp only [List.length_cons]; omega)

/-- Behind the end of the text it goes on forever. -/
theorem tokens_stuck (hstop : stop none = false) (hts : ∀ x ∈ ts, stop (some x.tok) = false)
    (fuel : ℕ) : loop (tokenTurn stop) fuel (⟨ts, none⟩, acc) = stuck := by
  refine loop_stuck (I := fun x => x.1.failure = none ∧
    ∀ y ∈ x.1.tokens, stop (some y.tok) = false) ?_ ⟨rfl, hts⟩
  rintro ⟨⟨tokens, failure⟩, acc⟩ ⟨rfl, htokens⟩
  refine .inr ⟨_, tokenTurn_pass ?_ (Lexer.standing_none _), rfl, ?_⟩
  · cases tokens with
    | nil => exact hstop
    | cons y tokens => exact htokens y (List.mem_cons_self ..)
  · exact fun y hy => htokens y (List.mem_of_mem_tail hy)

theorem first_stop (stop : Option Tok → Bool) (ts : List Token) :
    (∀ x ∈ ts, stop (some x.tok) = false) ∨ ∃ before t after, ts = before ++ t :: after ∧
      stop (some t.tok) = true ∧ ∀ x ∈ before, stop (some x.tok) = false := by
  induction ts with
  | nil => exact .inl fun x hx => absurd hx List.not_mem_nil
  | cons t ts ih =>
    by_cases ht : stop (some t.tok) = true
    · exact .inr ⟨[], t, ts, rfl, ht, fun x hx => absurd hx List.not_mem_nil⟩
    · rw [Bool.not_eq_true] at ht
      rcases ih with hall | ⟨before, u, after, rfl, hu, hbefore⟩
      · exact .inl (List.forall_mem_cons.mpr ⟨ht, hall⟩)
      · exact .inr ⟨t :: before, u, after, rfl, hu, List.forall_mem_cons.mpr ⟨ht, hbefore⟩⟩

end

/-! ### The arguments -/

inductive ArgumentPlace where
  | between | inBrackets | inArgument

/-- Every argument that is begun is ended: by a bracket if it starts with one, else by a comma or
by the parenthesis that ends the list. -/
def argumentsEnd : ArgumentPlace → List Token → Bool
  | .between, [] => true
  | .inBrackets, [] | .inArgument, [] => false
  | .between, t :: ts =>
    match t.tok with
    | .RParen => true
    | .Comma => argumentsEnd .between ts
    | .LBracket => argumentsEnd .inBrackets ts
    | _ => argumentsEnd .inArgument ts
  | .inBrackets, t :: ts =>
    if t.tok = .RBracket then argumentsEnd .between ts else argumentsEnd .inBrackets ts
  | .inArgument, t :: ts =>
    match t.tok with
    | .RParen => true
    | .Comma => argumentsEnd .between ts
    | _ => argumentsEnd .inArgument ts

section
variable {failure : Option String} {ts before after : List Token} {t : Token}

theorem inBrackets_append (h : ∀ x ∈ before, (some x.tok == some Tok.RBracket) = false)
    (ht : (some t.tok == some Tok.RBracket) = true) :
    argumentsEnd .inBrackets (before ++ t :: after) = argumentsEnd .between after := by
  induction before with
  | nil => exact if_pos (by simpa using ht)
  | cons x before ih =>
    obtain ⟨hx, hbefore⟩ := List.forall_mem_cons.mp h
    rw [List.cons_append, argumentsEnd, if_neg (by simpa using hx), ih hbefore]

theorem inBrackets_open (h : ∀ x ∈ ts, (some x.tok == some Tok.RBracket) = false) :
    argumentsEnd .inBrackets ts = false := by
  induction ts with
  | nil => rfl
  | cons x ts ih =>
    obtain ⟨hx, hts⟩ := List.forall_mem_cons.mp h
    rw [argumentsEnd, if_neg (by simpa using hx), ih hts]

theorem argument_token
    (h : (some t.tok == some Tok.Comma || some t.tok == some Tok.RParen) = false) :
    t.tok ≠ .Comma ∧ t.tok ≠ .RParen := by
  simpa using h

theorem inArgument_append
    (h : ∀ x ∈ before, (some x.tok == some Tok.Comma || some x.tok == some Tok.RParen) = false)
    (ht : (some t.tok == some Tok.Comma || some t.tok == some Tok.RParen) = true) :
    argumentsEnd .inArgument (before ++ t :: after) =
      (t.tok == .RParen || argumentsEnd .between after) := by
  induction before with
  | nil =>
    rcases (by simpa using ht : t.tok = .Comma ∨ t.tok = .RParen) with ht | ht <;>
      rw [List.nil_append, argumentsEnd, ht] <;> rfl
  | cons x before ih =>
    obtain ⟨hx, hbefore⟩ := List.forall_mem_cons.mp h
    rw [List.cons_append, argumentsEnd, ih hbefore]
    split
    · exact absurd ‹x.tok = .RParen› (argument_token hx).2
    · exact absurd ‹x.tok = .Comma› (argument_token hx).1
    · rfl

theorem inArgument_open
    (h : ∀ x ∈ ts, (some x.tok == some Tok.Comma || some x.tok == some Tok.RParen) = false) :
    argumentsEnd .inArgument ts = false := by
  induction ts with
  | nil => rfl
  | cons x ts ih =>
    obtain ⟨hx, hts⟩ := List.forall_mem_cons.mp h
    rw [argumentsEnd, ih hts]
    split
    · exact absurd ‹x.tok = .RParen› (argument_token hx).2
    · exact absurd ‹x.tok = .Comma› (argument_token hx).1
    · rfl

/-- The reading of the arguments comes to an end. -/
def ArgumentsEnd (l : Lexer) : Prop :=
  l.failure.isSome ∨ argumentsEnd .between l.tokens = true

instance (l : Lexer) : Decidable (ArgumentsEnd l) := inferInstanceAs (Decidable (_ ∨ _))

/-- What one turn does: it leaves the loop, goes on with fewer tokens, or, where an argument is not
ended, gets stuck. -/
inductive ArgumentTurn (l : Lexer) (n : ℕ)
    (turn : ℕ → Attempt String (Turn (Lexer × List Text) (List Text))) : Prop
  | leave (r : Except String (List Text)) (hend : ArgumentsEnd l)
      (h : ∀ fuel, n < fuel → turn fuel = result (r.map .leave))
  | again (l' : Lexer) (args : List Text) (hless : l'.tokens.length < l.tokens.length)
      (hend : ArgumentsEnd l ↔ ArgumentsEnd l')
      (h : ∀ fuel, n < fuel → turn fuel = result (.ok (.again (l', args))))
  | stuck (hend : ¬ArgumentsEnd l) (h : ∀ fuel, turn fuel = stuck)

variable {args : List Text} {n : ℕ}

section
variable {turn : ℕ → Attempt String (Turn (Lexer × List Text) (List Text))} {l : Lexer}

theorem ArgumentTurn.passing (after : List Token) (failure : Option String) (args : List Text)
    (hless : after.length < l.tokens.length)
    (hend : ArgumentsEnd l ↔ ArgumentsEnd ⟨after, failure⟩)
    (hturn : ∀ fuel, n < fuel → turn fuel =
      result (Lexer.standing after failure) >>= fun lexer => pure (.again (lexer, args))) :
    ArgumentTurn l n turn := by
  rcases Lexer.standing_cases after failure with ⟨e, rfl, he⟩ | hok
  · refine .leave (.error e) (hend.mpr (.inl rfl)) fun fuel hfuel => ?_
    rw [hturn fuel hfuel, he]
    rfl
  · refine .again ⟨after, failure⟩ args hless hend fun fuel hfuel => ?_
    rw [hturn fuel hfuel, hok]
    rfl

theorem ArgumentTurn.reading (stop : Option Tok → Bool)
    (rest : Lexer × Text → Attempt String (Turn (Lexer × List Text) (List Text)))
    (hstop : stop none = false) (hn : ts.length ≤ n)
    (hturn : ∀ fuel, turn fuel = result (Lexer.standing ts failure) >>= fun lexer =>
      loop (tokenTurn stop) fuel (lexer, t.content) >>= rest)
    (hopen : (∀ x ∈ ts, stop (some x.tok) = false) →
      (ArgumentsEnd ⟨t :: ts, failure⟩ ↔ failure.isSome))
    (hfound : ∀ before u after, ts = before ++ u :: after → stop (some u.tok) = true →
      (∀ x ∈ before, stop (some x.tok) = false) →
      (∀ fuel, n < fuel → turn fuel =
        rest (⟨u :: after, failure⟩, t.content ++ before.flatMap Token.content)) →
      ArgumentTurn ⟨t :: ts, failure⟩ n turn) :
    ArgumentTurn ⟨t :: ts, failure⟩ n turn := by
  rcases Lexer.standing_cases ts failure with ⟨e, rfl, he⟩ | hok
  · exact .leave (.error e) (.inl rfl) fun fuel _ => by rw [hturn, he]; rfl
  rcases first_stop stop ts with hall | ⟨before, u, after, rfl, hu, hbefore⟩
  · -- no token ends the argument: the lexer does, by an error, or nothing
    cases failure with
    | none =>
      refine .stuck (by simp [hopen hall]) fun fuel => ?_
      rw [hturn, hok, ok_bind, tokens_stuck hstop hall, stuck_bind]
    | some e =>
      refine .leave (.error e) (.inl rfl) fun fuel hfuel => ?_
      rw [hturn, hok, ok_bind, tokens_failed hstop hall (by omega)]
      rfl
  · have hlength : before.length < n := by
      rw [List.length_append, List.length_cons] at hn
      omega
    refine hfound before u after rfl hu hbefore fun fuel hfuel => ?_
    rw [hturn, hok, ok_bind, tokens_found hbefore hu (by omega), ok_bind]

end

theorem argumentTurn_nil (failure : Option String) (args : List Text) (n : ℕ) :
    ArgumentTurn ⟨[], failure⟩ n fun fuel => argumentTurn fuel (⟨[], failure⟩, args) :=
  .leave (.error _) (.inr rfl) fun _ _ => rfl

theorem argumentTurn_rParen (ht : t.tok = .RParen) :
    ArgumentTurn ⟨t :: ts, failure⟩ n fun fuel => argumentTurn fuel (⟨t :: ts, failure⟩, args) := by
  refine .leave (.ok args) (.inr ?_) fun fuel _ => ?_
  · rw [argumentsEnd, ht]
  · rw [argumentTurn, if_pos (by simp [ht])]
    rfl

theorem argumentTurn_comma (ht : t.tok = .Comma) :
    ArgumentTurn ⟨t :: ts, failure⟩ n fun fuel => argumentTurn fuel (⟨t :: ts, failure⟩, args) := by
  refine .passing ts failure args (Nat.lt_succ_self _) ?_ fun fuel _ => ?_
  · rw [ArgumentsEnd, ArgumentsEnd, argumentsEnd, ht]
  · rw [argumentTurn, if_neg (by simp [ht]), if_neg (by simp), if_pos (by simp [ht])]
    rfl

theorem argumentTurn_eq_list (ht : t.tok = .LBracket) (fuel : ℕ) :
    argumentTurn fuel (⟨t :: ts, failure⟩, args) =
      result (Lexer.standing ts failure) >>= fun lexer =>
        loop (tokenTurn (· == some .RBracket)) fuel (lexer, t.content) >>= fun x =>
          result x.1.advance >>= fun lexer => pure (.again (lexer, args ++ [x.2 ++ x.1.content])) := by
  rw [argumentTurn, if_neg (by simp [ht]), if_neg (by simp), if_neg (by simp [ht]),
    if_pos (by simp [ht])]
  rfl

theorem argumentTurn_eq_word (hparen : t.tok ≠ .RParen) (hcomma : t.tok ≠ .Comma)
    (hbracket : t.tok ≠ .LBracket) (fuel : ℕ) : argumentTurn fuel (⟨t :: ts, failure⟩, args) =
      result (Lexer.standing ts failure) >>= fun lexer =>
        loop (tokenTurn fun t => t == some .Comma || t == some .RParen) fuel (lexer, t.content) >>=
          fun x => if x.1.peek = some .RParen then pure (.leave (args ++ [x.2]))
            else result x.1.advance >>= fun lexer => pure (.again (lexer, args ++ [x.2])) := by
  rw [argumentTurn, if_neg (by simp [hparen]), if_neg (by simp), if_neg (by simp [hcomma]),
    if_neg (by simp [hbracket])]
  rfl

theorem argumentTurn_lBracket (ht : t.tok = .LBracket) (hn : ts.length ≤ n) :
    ArgumentTurn ⟨t :: ts, failure⟩ n fun fuel => argumentTurn fuel (⟨t :: ts, failure⟩, args) := by
  have hend : ArgumentsEnd ⟨t :: ts, failure⟩ ↔
      failure.isSome ∨ argumentsEnd .inBrackets ts = true := by
    rw [ArgumentsEnd, argumentsEnd, ht]
  refine .reading (· == some .RBracket)
    (fun x => result x.1.advance >>= fun lexer =>
      pure (.again (lexer, args ++ [x.2 ++ x.1.content]))) rfl hn (fun fuel => ?_) (fun hall => ?_)
    fun before u after hts hu hbefore hturn => ?_
  · exact argumentTurn_eq_list ht fuel
  · rw [hend, inBrackets_open hall]
    simp
  · subst hts
    rw [inBrackets_append hbefore hu] at hend
    refine .passing after failure _ ?_ hend hturn
    simp only [List.length_cons, List.length_append]
    omega

theorem argumentTurn_other (hparen : t.tok ≠ .RParen) (hcomma : t.tok ≠ .Comma)
    (hbracket : t.tok ≠ .LBracket) (hn : ts.length ≤ n) :
    ArgumentTurn ⟨t :: ts, failure⟩ n fun fuel => argumentTurn fuel (⟨t :: ts, failure⟩, args) := by
  have hend : ArgumentsEnd ⟨t :: ts, failure⟩ ↔
      failure.isSome ∨ argumentsEnd .inArgument ts = true := by
    rw [ArgumentsEnd, argumentsEnd]
    split
    · exact absurd ‹t.tok = .RParen› hparen
    · exact absurd ‹t.tok = .Comma› hcomma
    · exact absurd ‹t.tok = .LBracket› hbracket
    · rfl
  refine .reading (fun t => t == some .Comma || t == some .RParen)
    (fun x => if x.1.peek = some .RParen then pure (.leave (args ++ [x.2]))
      else result x.1.advance >>= fun lexer => pure (.again (lexer, args ++ [x.2])))
    rfl hn (fun fuel => ?_) (fun hall => ?_) fun before u after hts hu hbefore hturn => ?_
  · exact argumentTurn_eq_word hparen hcomma hbracket fuel
  · rw [hend, inArgument_open hall]
    simp
  · subst hts
    rw [inArgument_append hbefore hu] at hend
    by_cases hu' : u.tok = .RParen
    · -- the parenthesis is left for the end of the list
      refine .leave (.ok (args ++ [t.content ++ before.flatMap Token.content]))
        (hend.mpr (.inr (by simp [hu']))) fun fuel hfuel => ?_
      rw [hturn fuel hfuel, if_pos (by simp [hu'])]
      rfl
    · rw [beq_false_of_ne hu', Bool.false_or] at hend
      refine .passing after failure (args ++ [t.content ++ before.flatMap Token.content]) ?_ hend
        fun fuel hfuel => ?_
      · simp only [List.length_cons, List.length_append]
        omega
      · rw [hturn fuel hfuel, if_neg (by simp [hu'])]
        rfl

theorem argument_turn (l : Lexer) (args : List Text) (hn : l.tokens.length ≤ n) :
    ArgumentTurn l n fun fuel => argumentTurn fuel (l, args) := by
  obtain ⟨tokens, failure⟩ := l
  cases tokens with
  | nil => exact argumentTurn_nil failure args n
  | cons t ts =>
    have hts : ts.length ≤ n := Nat.le_of_succ_le hn
    by_cases hparen : t.tok = .RParen
    · exact argumentTurn_rParen hparen
    by_cases hcomma : t.tok = .Comma
    · exact argumentTurn_comma hcomma
    by_cases hbracket : t.tok = .LBracket
    · exact argumentTurn_lBracket hbracket hts
    · exact argumentTurn_other hparen hcomma hbracket hts

/-- The list of arguments is read to its end just where every argument is ended. -/
theorem arguments_settle (l : Lexer) (args : List Text) :
    ∃ x, Settles (fun fuel => loop (argumentTurn fuel) fuel (l, args)) x ∧
      (x ≠ stuck ↔ ArgumentsEnd l) := by
  by_cases hend : ArgumentsEnd l
  · obtain ⟨r, hr⟩ := loop_returns argumentTurn (fun x => x.1.tokens.length)
      (fun x => ArgumentsEnd x.1 ∧ x.1.tokens.length ≤ l.tokens.length) l.tokens.length
      (fun {x} hx => by
        cases argument_turn x.1 x.2 hx.2 with
        | leave r _ h =>
          refine ⟨_, h, fun x' hx' => ?_⟩
          cases r <;> cases hx'
        | again l' args hless hend' h =>
          refine ⟨_, h, fun x' hx' => ?_⟩
          cases hx'
          exact ⟨⟨hend'.mp hx.1, (Nat.le_of_lt hless).trans hx.2⟩, hless⟩
        | stuck hend' _ => exact absurd hx.1 hend')
      (s := (l, args)) ⟨hend, Nat.le_refl _⟩
    exact ⟨result r, ⟨l.tokens.length, fun fuel hfuel => hr fuel fuel hfuel hfuel⟩,
      iff_of_true (result_ne_stuck r) hend⟩
  · refine ⟨stuck, ⟨l.tokens.length, fun fuel hfuel => ?_⟩, iff_of_false (fun h => h rfl) hend⟩
    refine loop_stuck (I := fun x => ¬ArgumentsEnd x.1 ∧ x.1.tokens.length ≤ l.tokens.length)
      (fun {x} hx => ?_) ⟨hend, Nat.le_refl _⟩
    cases argument_turn x.1 x.2 hx.2 with
    | leave r hend' _ => exact absurd hend' hx.1
    | again l' args hless hend' h =>
      exact .inr ⟨_, h fuel hfuel, mt hend'.mpr hx.1, (Nat.le_of_lt hless).trans hx.2⟩
    | stuck _ h => exact .inl (h fuel)

end

/-! ### The type parameters -/

section
variable (ids : Identifiers) (p : MoveParser)

/-- A type starts where the lexer stands. -/
def AtType (l : Lexer) : Prop := l.peek ≠ none ∧ l.peek ≠ some .Greater ∧ l.peek ≠ some .Comma

/-- Type parameters and commas stand between two places of a list of type parameters. -/
inductive ReadsTypes : Lexer → Lexer → Prop
  | here (l : Lexer) : ReadsTypes l l
  | comma {l l' m : Lexer} (hpeek : l.peek = some .Comma) (hl : l.advance = .ok l')
      (h : ReadsTypes l' m) : ReadsTypes l m
  | type {l l' m : Lexer} {ty : Typ} (hat : AtType l) (hty : p.parseType l = .ok (ty, l'))
      (hres : Resolves ids none ty) (h : ReadsTypes l' m) : ReadsTypes l m

/-- A type that is read here and whose outermost name resolves can be resolved as a whole. -/
def Harmless (l : Lexer) : Prop :=
  AtType l → ∀ ty l', p.parseType l = .ok (ty, l') → NameResolves ids none ty →
    Resolves ids none ty

/-- How the loop over the type parameters from `l` on can end. -/
inductive TypesEnd (l : Lexer) : Attempt String (Lexer × List TypeTag) → Prop
  | stuck {m : Lexer} (h : ReadsTypes ids p l m) (hm : ¬Harmless ids p m) : TypesEnd l stuck
  | error {e : String} (h : ∀ m, ReadsTypes ids p l m → Harmless ids p m ∧ m.peek ≠ some .Greater) :
      TypesEnd l (result (.error e))
  | ok {m : Lexer} {ts : List TypeTag} (h : ReadsTypes ids p l m) (hm : m.peek = some .Greater)
      (hall : ∀ m', ReadsTypes ids p l m' →
        Harmless ids p m' ∧ (m'.peek = some .Greater → m' = m)) : TypesEnd l (result (.ok (m, ts)))

variable {ids p} {l l' m : Lexer}

theorem parseTypeParams_eq {ty : Typ} (h : p.parseType l = .ok (ty, l')) :
    parseTypeParams ids p l = unwrapSpannedTy ids ty >>= fun t => pure (t, l') := by
  rw [parseTypeParams, h, ok_bind]

theorem harmless_iff : Harmless ids p l ↔ (AtType l → parseTypeParams ids p l ≠ stuck) := by
  refine imp_congr_right fun _ => ?_
  cases hty : p.parseType l with
  | error e =>
    have hrun : parseTypeParams ids p l = result (.error e) := by
      rw [parseTypeParams, hty, error_bind]
    rw [hrun]
    refine iff_of_true (fun ty l' h => ?_) (result_ne_stuck _)
    cases h
  | ok read =>
    obtain ⟨ty, l'⟩ := read
    rw [parseTypeParams_eq hty, map_ne_stuck, unwrapSpannedTy_ne_stuck_iff]
    constructor
    · exact fun h => h ty l' rfl
    · intro h ty' l'' heq
      cases heq
      exact h

theorem parseTypeParams_ok {t : TypeTag} (h : parseTypeParams ids p l = result (.ok (t, l'))) :
    ∃ ty, p.parseType l = .ok (ty, l') ∧ Resolves ids none ty := by
  cases hty : p.parseType l with
  | error e =>
    rw [parseTypeParams, hty] at h
    cases h
  | ok read =>
    obtain ⟨ty, m⟩ := read
    rw [parseTypeParams_eq hty] at h
    rcases hu : unwrapSpannedTy ids ty with _ | _ | u
    · rw [hu] at h
      cases h
    · rw [hu] at h
      cases h
    · rw [hu] at h
      cases h
      exact ⟨ty, rfl, unwrapSpannedTy_ok_iff.mp ⟨t, hu⟩⟩

theorem TypesEnd.step {x : Attempt String (Lexer × List TypeTag)}
    (hreads : ∀ m, ReadsTypes ids p l m ↔ m = l ∨ ReadsTypes ids p l' m) (hl : Harmless ids p l)
    (hpeek : l.peek ≠ some .Greater) (h : TypesEnd ids p l' x) : TypesEnd ids p l x := by
  cases h with
  | stuck h hm => exact .stuck ((hreads _).mpr (.inr h)) hm
  | error h =>
    refine .error fun m hm => ?_
    rcases (hreads m).mp hm with rfl | hm
    · exact ⟨hl, hpeek⟩
    · exact h m hm
  | ok h hm hall =>
    refine .ok ((hreads _).mpr (.inr h)) hm fun m' hm' => ?_
    rcases (hreads m').mp hm' with rfl | hm'
    · exact ⟨hl, fun hgreater => absurd hgreater hpeek⟩
    · exact hall m' hm'

/-- Where the loop ends, only that place is read. -/
theorem readsTypes_last (hcomma : ∀ l', l.peek = some .Comma → l.advance ≠ .ok l')
    (htype : ∀ t l', AtType l → parseTypeParams ids p l ≠ result (.ok (t, l')))
    (h : ReadsTypes ids p l m) : m = l := by
  cases h with
  | here => rfl
  | comma hpeek hl _ => exact absurd hl (hcomma _ hpeek)
  | type hat hty hres _ =>
    obtain ⟨t, ht⟩ := unwrapSpannedTy_ok_iff.mpr hres
    have hrun : parseTypeParams ids p _ = _ := parseTypeParams_eq hty
    rw [unwrapSpannedTy, ht] at hrun
    exact absurd hrun (htype t _ hat)

theorem readsTypes_comma (hpeek : l.peek = some .Comma) (hl : l.advance = .ok l') :
    ReadsTypes ids p l m ↔ m = l ∨ ReadsTypes ids p l' m := by
  constructor
  · intro h
    cases h with
    | here => exact .inl rfl
    | comma _ hl' h =>
      rw [hl, Except.ok.injEq] at hl'
      exact .inr (hl' ▸ h)
    | type hat _ _ _ => exact absurd hpeek hat.2.2
  · rintro (rfl | h)
    · exact .here _
    · exact .comma hpeek hl h

theorem readsTypes_type {t : TypeTag} (hat : AtType l)
    (ht : parseTypeParams ids p l = result (.ok (t, l'))) :
    ReadsTypes ids p l m ↔ m = l ∨ ReadsTypes ids p l' m := by
  obtain ⟨ty, hty, hres⟩ := parseTypeParams_ok ht
  constructor
  · intro h
    cases h with
    | here => exact .inl rfl
    | comma hpeek _ _ => exact absurd hpeek hat.2.2
    | type _ hty' _ h =>
      have hsame := Except.ok.inj (hty.symm.trans hty')
      exact .inr ((Prod.mk.inj hsame).2 ▸ h)
  · rintro (rfl | h)
    · exact .here _
    · exact .type hat hty hres h

theorem parseTypeParams_lt (hp : p.Documented) {t : TypeTag}
    (h : parseTypeParams ids p l = result (.ok (t, l'))) : l'.tokens.length < l.tokens.length := by
  obtain ⟨ty, hty, -⟩ := parseTypeParams_ok h
  exact hp hty

variable (ids) in
theorem types_settle (hp : p.Documented) (l : Lexer) (acc : List TypeTag) :
    ∃ x, Settles (fun fuel => loop (typeParameterTurn ids p) fuel (l, acc)) x ∧
      TypesEnd ids p l x := by
  -- every turn that goes on leaves fewer tokens
  generalize hk : l.tokens.length = k
  induction k using Nat.strongRecOn generalizing l acc with
  | ind k ih =>
    subst hk
    by_cases hgreater : l.peek = some .Greater
    · have hlast : ∀ m, ReadsTypes ids p l m → m = l := fun m => readsTypes_last
        (fun _ hcomma => by simp [hgreater] at hcomma) fun _ _ hat => absurd hgreater hat.2.1
      refine ⟨_, settles_leave (if_pos hgreater), .ok (.here l) hgreater fun m' hm' => ?_⟩
      rw [hlast m' hm']
      exact ⟨fun hat => absurd hgreater hat.2.1, fun _ => rfl⟩
    by_cases hnone : l.peek = none
    · have hturn : typeParameterTurn ids p (l, acc) = result (.error _) :=
        (if_neg hgreater).trans (if_pos hnone)
      refine ⟨_, settles_error hturn, .error fun m hm => ?_⟩
      rw [readsTypes_last (fun _ hcomma => by simp [hnone] at hcomma)
        (fun _ _ hat => absurd hnone hat.1) hm]
      exact ⟨fun hat => absurd hnone hat.1, hgreater⟩
    by_cases hcomma : l.peek = some .Comma
    · have hharmless : Harmless ids p l := fun hat => absurd hcomma hat.2.2
      have hturn : typeParameterTurn ids p (l, acc) =
          result l.advance >>= fun lexer => pure (.again (lexer, acc)) :=
        (if_neg hgreater).trans ((if_neg hnone).trans (if_pos hcomma))
      cases hl : l.advance with
      | error e =>
        rw [hl, error_bind] at hturn
        refine ⟨_, settles_error hturn, .error fun m hm => ?_⟩
        rw [readsTypes_last (fun _ _ h => by rw [hl] at h; cases h)
          (fun _ _ hat => absurd hcomma hat.2.2) hm]
        exact ⟨hharmless, hgreater⟩
      | ok l' =>
        rw [hl, ok_bind] at hturn
        obtain ⟨x, hx, hend⟩ := ih l'.tokens.length (Lexer.advance_lt hnone hl) l' acc rfl
        exact ⟨x, settles_again hturn hx,
          hend.step (fun m => readsTypes_comma hcomma hl) hharmless hgreater⟩
    · have hat : AtType l := ⟨hnone, hgreater, hcomma⟩
      have hturn : typeParameterTurn ids p (l, acc) =
          parseTypeParams ids p l >>= fun y => pure (.again (y.2, acc ++ [y.1])) :=
        (if_neg hgreater).trans ((if_neg hnone).trans (if_neg hcomma))
      -- the type is read, or it is refused, or reading it panics
      rcases hparse : parseTypeParams ids p l with _ | e | ⟨t, l'⟩
      · rw [hparse] at hturn
        exact ⟨_, settles_stuck hturn, .stuck (.here l) fun h => harmless_iff.mp h hat hparse⟩
      · rw [hparse] at hturn
        refine ⟨_, settles_error hturn, .error fun m hm => ?_⟩
        rw [readsTypes_last (fun _ h => absurd h hcomma)
          (fun _ _ _ h => by rw [hparse] at h; cases h) hm]
        exact ⟨harmless_iff.mpr fun _ h => (by rw [hparse] at h; cases h), hgreater⟩
      · rw [hparse] at hturn
        obtain ⟨x, hx, hend⟩ := ih l'.tokens.length (parseTypeParams_lt hp hparse) l' (acc ++ [t]) rfl
        exact ⟨x, settles_again hturn hx, hend.step (fun m => readsTypes_type hat hparse)
          (harmless_iff.mpr fun _ h => by rw [hparse] at h; cases h) hgreater⟩

variable (ids p)

/-- The places of the list of type parameters, where `l` is behind the name. -/
def InTypes (l m : Lexer) : Prop :=
  l.peek = some .Less ∧ ∃ l', l.advance = .ok l' ∧ ReadsTypes ids p l' m

/-- The place behind the type parameters, if there are any. -/
def AfterTypes (l after : Lexer) : Prop :=
  l.peek ≠ some .Less ∧ after = l ∨
    ∃ m, InTypes ids p l m ∧ m.peek = some .Greater ∧ m.advance = .ok after

inductive CallTypesEnd (l : Lexer) : Attempt String (Lexer × List TypeTag) → Prop
  | stuck {m : Lexer} (h : InTypes ids p l m) (hm : ¬Harmless ids p m) : CallTypesEnd l stuck
  | error {e : String} (h : ∀ m, InTypes ids p l m → Harmless ids p m)
      (hafter : ∀ after, ¬AfterTypes ids p l after) : CallTypesEnd l (result (.error e))
  | ok {after : Lexer} {ts : List TypeTag} (h : ∀ m, InTypes ids p l m → Harmless ids p m)
      (hafter : ∀ m, AfterTypes ids p l m ↔ m = after) : CallTypesEnd l (result (.ok (after, ts)))

variable {ids p}

theorem inTypes_iff (hless : l.peek = some .Less) (hl : l.advance = .ok l') :
    InTypes ids p l m ↔ ReadsTypes ids p l' m := by
  constructor
  · rintro ⟨-, k, hk, h⟩
    rw [hl, Except.ok.injEq] at hk
    exact hk ▸ h
  · exact fun h => ⟨hless, l', hl, h⟩

theorem afterTypes_iff (hless : l.peek = some .Less) {after : Lexer} :
    AfterTypes ids p l after ↔
      ∃ m, InTypes ids p l m ∧ m.peek = some .Greater ∧ m.advance = .ok after :=
  or_iff_right fun h => h.1 hless

theorem callTypes_less (hless : l.peek = some .Less) (fuel : ℕ) :
    callTypes ids p fuel l = result l.advance >>= fun l' =>
      loop (typeParameterTurn ids p) fuel (l', []) >>= fun x =>
        result x.1.advance >>= fun after => pure (after, x.2) := if_pos hless

variable (ids) in
theorem callTypes_settle (hp : p.Documented) (l : Lexer) :
    ∃ x, Settles (fun fuel => callTypes ids p fuel l) x ∧ CallTypesEnd ids p l x := by
  by_cases hless : l.peek = some .Less
  · simp only [callTypes_less hless]
    cases hl : l.advance with
    | error e =>
      refine ⟨_, .const _, .error ?_ ?_⟩
      · rintro m ⟨-, l', hl', -⟩
        rw [hl] at hl'
        cases hl'
      · intro after hafter
        obtain ⟨m, ⟨-, l', hl', -⟩, -⟩ := (afterTypes_iff hless).mp hafter
        rw [hl] at hl'
        cases hl'
    | ok l' =>
      -- the loop comes to all places of the list, and to no others
      have hin : ∀ m, InTypes ids p l m ↔ ReadsTypes ids p l' m := fun m => inTypes_iff hless hl
      obtain ⟨x, hx, hend⟩ := types_settle ids hp l' []
      cases hend with
      | stuck h hm => exact ⟨_, hx.bind_stuck, .stuck ((hin _).mpr h) hm⟩
      | error h =>
        refine ⟨_, hx.bind_error, .error (fun m hm => (h m ((hin m).mp hm)).1) ?_⟩
        intro after hafter
        obtain ⟨m, hm, hgreater, -⟩ := (afterTypes_iff hless).mp hafter
        exact (h m ((hin m).mp hm)).2 hgreater
      | @ok m ts h hm hall =>
        have hharmless : ∀ m, InTypes ids p l m → Harmless ids p m :=
          fun m hm => (hall m ((hin m).mp hm)).1
        refine ⟨_, hx.bind (.const _), ?_⟩
        cases hafter : m.advance with
        -- the `>` at the end has to be passed
        | error e =>
          refine .error hharmless fun after h' => ?_
          obtain ⟨m', hm', hgreater, hadvance⟩ := (afterTypes_iff hless).mp h'
          rw [(hall m' ((hin m').mp hm')).2 hgreater, hafter] at hadvance
          cases hadvance
        | ok after =>
          refine .ok hharmless fun k => ?_
          rw [afterTypes_iff hless]
          constructor
          · rintro ⟨m', hm', hgreater, hadvance⟩
            rw [(hall m' ((hin m').mp hm')).2 hgreater, hafter, Except.ok.injEq] at hadvance
            exact hadvance.symm
          · rintro rfl
            exact ⟨m, (hin m).mpr h, hm, hafter⟩
  · have hrun : ∀ fuel, callTypes ids p fuel l = pure (l, []) := fun fuel => if_neg hless
    simp only [hrun]
    refine ⟨_, .const _, .ok (fun m hm => absurd hm.1 hless) fun m => ?_⟩
    constructor
    · rintro (⟨-, rfl⟩ | ⟨_, hm, -⟩)
      · rfl
      · exact absurd hm.1 hless
    · rintro rfl
      exact .inl ⟨hless, rfl⟩

theorem callArguments_settle (l : Lexer) :
    ∃ x, Settles (fun fuel => callArguments fuel l) x ∧
      (x ≠ stuck ↔ ∀ l', l.peek = some .LParen → l.advance = .ok l' → ArgumentsEnd l') := by
  by_cases hparen : l.peek = some .LParen
  · have hrun : ∀ fuel, callArguments fuel l = result l.advance >>= fun l' =>
        loop (argumentTurn fuel) fuel (l', []) := fun fuel => if_neg (not_not.mpr hparen)
    simp only [hrun]
    cases hl : l.advance with
    | error e => exact ⟨_, .const _, iff_of_true (result_ne_stuck _) fun l' _ h => by cases h⟩
    | ok l' =>
      obtain ⟨x, hx, hend⟩ := arguments_settle l' []
      refine ⟨x, hx, hend.trans ⟨fun h k _ hk => ?_, fun h => h l' hparen rfl⟩⟩
      rwa [← Except.ok.inj hk]
  · have hrun : ∀ fuel, callArguments fuel l = throw _ := fun fuel => if_pos hparen
    simp only [hrun]
    exact ⟨_, .const _, iff_of_true (result_ne_stuck _) fun l' h => absurd h hparen⟩

variable (ids p) in
/-- Behind the name no type parameter panics, and in the list of arguments, if that is reached,
each one is ended. -/
def RestEnds (l : Lexer) : Prop :=
  (∀ m, InTypes ids p l m → Harmless ids p m) ∧ ∀ after l', AfterTypes ids p l after →
    after.peek = some .LParen → after.advance = .ok l' → ArgumentsEnd l'

variable (ids p) in
def CallEnds (call : Text) : Prop :=
  ∀ l l', Lexer.start p call = .ok l → l.peek = some .IdentifierValue → l.advance = .ok l' →
    RestEnds ids p l'

theorem rest_returns_iff (hp : p.Documented) (l : Lexer) (name : Text) :
    Returns (fun fuel => callTypes ids p fuel l >>= fun x => callArguments fuel x.1 >>= fun args =>
      pure (⟨name, x.2, args⟩ : Call)) ↔ RestEnds ids p l := by
  obtain ⟨x, hx, hend⟩ := callTypes_settle ids hp l
  cases hend with
  | stuck h hm =>
    rw [returns_iff hx.bind_stuck]
    exact iff_of_false (fun h => h rfl) fun hall => hm (hall.1 _ h)
  | error h hafter =>
    rw [returns_iff hx.bind_error]
    exact iff_of_true (result_ne_stuck _) ⟨h, fun after l' hl => absurd hl (hafter after)⟩
  | @ok after ts h hafter =>
    obtain ⟨y, hy, hargs⟩ := callArguments_settle after
    have hrest := hy.map fun args => (⟨name, ts, args⟩ : Call)
    rw [returns_iff (hx.bind hrest), map_ne_stuck, hargs]
    constructor
    · intro hend
      refine ⟨h, fun k l' hk => ?_⟩
      rw [(hafter k).mp hk]
      exact hend l'
    · exact fun hall l' => hall.2 after l' ((hafter after).mpr rfl)

theorem parseCall_returns_iff (hp : p.Documented) (cr : Ss58.Crates) (call : Text) :
    Returns (fun fuel => parseCall ids p cr fuel call) ↔
      CallEnds ids p (Ss58.replaceSs58Addresses cr call {}).1 := by
  have hrun : ∀ fuel, parseCall ids p cr fuel call =
      result (Lexer.start p (Ss58.replaceSs58Addresses cr call {}).1) >>= fun l =>
        callName l >>= fun x => callTypes ids p fuel x.1 >>= fun y =>
          callArguments fuel y.1 >>= fun args => pure ⟨x.2, y.2, args⟩ := fun _ => rfl
  simp only [hrun, CallEnds]
  cases hstart : Lexer.start p (Ss58.replaceSs58Addresses cr call {}).1 with
  | error e => exact iff_of_true ⟨_, .const _⟩ fun l l' h => by cases h
  | ok l =>
    simp only [ok_bind, Except.ok.injEq]
    by_cases hname : l.peek = some .IdentifierValue
    · have hcall : callName l = result l.advance >>= fun l' => pure (l', l.content) :=
        if_neg (not_not.mpr hname)
      rw [hcall]
      cases hl : l.advance with
      | error e =>
        refine iff_of_true ⟨_, .const _⟩ ?_
        rintro k l' rfl - h
        rw [hl] at h
        cases h
      | ok l' =>
        refine (rest_returns_iff hp l' l.content).trans ⟨?_, fun h => h l l' rfl hname hl⟩
        rintro h k k' rfl - hk
        rw [hl, Except.ok.injEq] at hk
        exact hk ▸ h
    · have hcall : callName l = throw _ := if_pos hname
      rw [hcall]
      refine iff_of_true ⟨_, .const _⟩ ?_
      rintro k l' rfl h
      exact absurd h hname

/-! ### Vectors -/

theorem passed_lt {E : Type} {l : Lexer} (elements : List E) (hpeek : l.peek ≠ none) :
    ∃ t, (result l.advance >>= fun l' => pure (.again (l', elements)) :
        Attempt String (Turn (Lexer × List E) (List E))) = result t ∧
      ∀ x', t = .ok (.again x') → x'.1.tokens.length < l.tokens.length := by
  cases hl : l.advance with
  | error e => exact ⟨.error e, rfl, fun x' h => by cases h⟩
  | ok l' =>
    refine ⟨.ok (.again (l', elements)), rfl, ?_⟩
    rintro x' ⟨⟩
    exact Lexer.advance_lt hpeek hl

theorem elementTurn_lt {E : Type} (fromStr : Text → Option E) (tpName : String) (l : Lexer)
    (elements : List E) : ∃ t, elementTurn fromStr tpName (l, elements) = result t ∧
      ∀ x', t = .ok (.again x') → x'.1.tokens.length < l.tokens.length := by
  unfold elementTurn
  split
  case h_1 => exact ⟨_, rfl, fun x' h => by cases h⟩
  case h_2 hcomma => exact passed_lt elements (by simp [hcomma])
  case h_3 => exact ⟨_, rfl, fun x' h => by cases h⟩
  case h_4 hnone =>
    split
    case h_1 => exact ⟨_, rfl, fun x' h => by cases h⟩
    case h_2 element _ => exact passed_lt (elements ++ [element]) hnone

theorem elements_return {E : Type} (fromStr : Text → Option E) (tpName : String) (l : Lexer)
    (elements : List E) :
    Returns (fun fuel => loop (elementTurn fromStr tpName) fuel (l, elements)) := by
  obtain ⟨r, hr⟩ := loop_returns (fun _ => elementTurn fromStr tpName)
    (fun x => x.1.tokens.length) (fun _ => True) 0
    (fun {x} _ => by
      obtain ⟨t, ht, hless⟩ := elementTurn_lt fromStr tpName x.1 x.2
      exact ⟨t, fun _ _ => ht, fun x' hx' => ⟨trivial, hless x' hx'⟩⟩)
    (s := (l, elements)) trivial
  exact ⟨r, l.tokens.length, fun fuel hfuel => hr fuel fuel (by omega) hfuel⟩

theorem parseVec_returns {E : Type} (fromStr : Text → Option E) (tpName : String) (tkn : Text) :
    Returns (fun fuel => parseVec p fromStr tpName fuel tkn) := by
  have hrun : ∀ fuel, parseVec p fromStr tpName fuel tkn = result (Lexer.start p tkn) >>= fun l =>
      if l.peek ≠ some .LBracket then throw "Vector in format  [n1, n2, ..., nn] is expected."
      else result l.advance >>= fun l' => loop (elementTurn fromStr tpName) fuel (l', []) :=
    fun _ => rfl
  simp only [hrun]
  cases Lexer.start p tkn with
  | error e => exact ⟨_, .const _⟩
  | ok l =>
    simp only [ok_bind]
    split
    · exact ⟨_, .const _⟩
    · cases l.advance with
      | error e => exact ⟨_, .const _⟩
      | ok l' => exact elements_return fromStr tpName l' []

/-- `parse_vec` always returns, so what matters is the call. -/
theorem parse_call_returns_iff (ids : Identifiers) (p : MoveParser) (hp : p.Documented)
    (cr : Ss58.Crates) (call : Text) :
    (Returns (fun fuel => parseCall ids p cr fuel call) ∧
      ∀ (E : Type) (fromStr : Text → Option E) tpName tkn,
        Returns (fun fuel => parseVec p fromStr tpName fuel tkn)) ↔
    CallEnds ids p (Ss58.replaceSs58Addresses cr call {}).1 := by
  rw [parseCall_returns_iff hp, and_iff_left]
  exact fun E fromStr tpName tkn => parseVec_returns fromStr tpName tkn

end

/-! ### Calls without types of modules -/

def punctuation : Char → Option Tok
  | '<' => some .Less
  | '>' => some .Greater
  | ',' => some .Comma
  | '(' => some .LParen
  | ')' => some .RParen
  | '[' => some .LBracket
  | ']' => some .RBracket
  | _ => none

def wordToken (word : Text) : List Token :=
  match word with
  | [] => []
  | c :: _ => [⟨if c.isAlpha then .IdentifierValue else .Other, word⟩]

/-- The tokens of a text of names, numbers and punctuation, of which `word` has been read. -/
def plainTokens (word : Text) : Text → List Token
  | [] => wordToken word
  | c :: s =>
    if c.isAlphanum || c == '_' then plainTokens (word ++ [c]) s
    else wordToken word ++ (punctuation c).toList.map (⟨·, [c]⟩) ++ plainTokens [] s

/-- Move's parser as far as such texts go: their types are plain names. -/
def plainParser : MoveParser where
  tokens := plainTokens []
  failure _ := none
  parseType l :=
    match l.tokens with
    | ⟨.IdentifierValue, name⟩ :: ts =>
      (Lexer.standing ts l.failure).map fun l' => (.Apply (.Name (String.ofList name)) [], l')
    | _ => .error "Unexpected token"
  parseNum l := (.error "Unexpected token", l)

theorem plainParser_parseType {l l' : Lexer} {ty : Typ}
    (h : plainParser.parseType l = .ok (ty, l')) :
    ∃ name, l.tokens = ⟨.IdentifierValue, name⟩ :: l'.tokens := by
  obtain ⟨tokens, failure⟩ := l
  change (match tokens with
    | ⟨.IdentifierValue, name⟩ :: ts =>
      (Lexer.standing ts failure).map fun l' => (.Apply (.Name (String.ofList name)) [], l')
    | _ => .error "Unexpected token") = Except.ok (ty, l') at h
  split at h
  · rename_i name ts
    rcases Lexer.standing_cases ts failure with ⟨e, rfl, he⟩ | hok
    · rw [he] at h
      cases h
    · rw [hok] at h
      cases h
      exact ⟨name, rfl⟩
  · cases h

theorem plainParser_documented : plainParser.Documented := by
  intro l ty l' h
  obtain ⟨name, htokens⟩ := plainParser_parseType h
  rw [htokens]
  exact Nat.lt_succ_self _

abbrev anyName : Identifiers := ⟨fun _ => true⟩

theorem closedCall_returns :
    Returns fun fuel => parseCall anyName plainParser Ss58.polkaCrates fuel "store_u64(60)".toList := by
  refine ((parse_call_returns_iff anyName plainParser plainParser_documented Ss58.polkaCrates
    "store_u64(60)".toList).mpr ?_).1
  have htext : (Ss58.replaceSs58Addresses Ss58.polkaCrates "store_u64(60)".toList {}).1 =
    "store_u64(60)".toList := by decide
  rw [htext]
  rintro l l' ⟨⟩ - ⟨⟩
  refine ⟨fun m hm => absurd hm.1 (by decide), ?_⟩
  rintro after k (⟨-, rfl⟩ | ⟨m, hm, -⟩)
  · rintro - ⟨⟩
    exact .inr (by decide)
  · exact absurd hm.1 (by decide)

/-- The call is cut off in front of its last parenthesis. -/
theorem openCall_runs_on :
    ¬Returns fun fuel => parseCall anyName plainParser Ss58.polkaCrates fuel
      "store_u64(60".toList := by
  rw [parseCall_returns_iff plainParser_documented]
  have htext : (Ss58.replaceSs58Addresses Ss58.polkaCrates "store_u64(60".toList {}).1 =
    "store_u64(60".toList := by decide
  rw [htext]
  intro h
  have hend := (h _ _ rfl (by decide) rfl).2 _ _ (.inl ⟨by decide, rfl⟩) (by decide) rfl
  exact absurd hend (by decide)

end MoveTools.Dove
