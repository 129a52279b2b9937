import Mathlib.Data.Nat.Basic

namespace MoveTools

/-- A run that ends with a value or an error, or does not end: `none` stands for a panic, and for
running out of fuel. -/
abbrev Attempt (ε α : Type) := ExceptT ε Option α

namespace Attempt

variable {ε σ α β : Type}

def result (x : Except ε α) : Attempt ε α := ExceptT.mk (some x)

def stuck : Attempt ε α := ExceptT.mk none

@[simp] theorem ok_bind (a : α) (f : α → Attempt ε β) : (result (.ok a) >>= f) = f a := rfl

@[simp] theorem error_bind (e : ε) (f : α → Attempt ε β) :
    (result (.error e) >>= f) = result (.error e) := rfl

@[simp] theorem stuck_bind (f : α → Attempt ε β) : (stuck >>= f) = stuck := rfl

theorem result_ne_stuck (x : Except ε α) : result x ≠ stuck := fun h => by cases h

/-- `unwrap` -/
def unwrap (x : Attempt ε α) : Attempt ε α :=
  match x.run with
  | some (.ok a) => pure a
  | _ => stuck

@[simp] theorem unwrap_ok (a : α) : unwrap (result (.ok a) : Attempt ε α) = result (.ok a) := rfl

@[simp] theorem unwrap_error (e : ε) : unwrap (result (.error e) : Attempt ε α) = stuck := rfl

@[simp] theorem unwrap_stuck : unwrap (stuck : Attempt ε α) = stuck := rfl

theorem unwrap_eq_ok_iff {x : Attempt ε α} {a : α} :
    unwrap x = result (.ok a) ↔ x = result (.ok a) := by
  rcases x with _ | _ | b
  · rfl
  · refine iff_of_false (fun h => ?_) fun h => ?_ <;> cases h
  · rfl

theorem bind_ok_iff {x : Attempt ε α} {f : α → Attempt ε β} :
    (∃ b, (x >>= f) = result (.ok b)) ↔ ∃ a, x = result (.ok a) ∧ ∃ b, f a = result (.ok b) := by
  rcases x with _ | e | a
  · refine iff_of_false ?_ ?_ <;> rintro ⟨_, h⟩
    · cases h
    · cases h.1
  · refine iff_of_false ?_ ?_ <;> rintro ⟨_, h⟩
    · cases h
    · cases h.1
  · constructor
    · exact fun h => ⟨a, rfl, h⟩
    · rintro ⟨_, ⟨⟩, h⟩
      exact h

/-- There is a result, and it is a value just where `P` holds of one, and that value. -/
def Gives (x : Attempt ε α) (P : α → Prop) : Prop := ∃ r, x = result r ∧ ∀ a, r = .ok a ↔ P a

theorem gives_ok (a : α) : Gives (result (.ok a) : Attempt ε α) (· = a) :=
  ⟨.ok a, rfl, fun b => by rw [Except.ok.injEq]; exact eq_comm⟩

theorem gives_error (e : ε) : Gives (result (.error e) : Attempt ε α) fun _ => False :=
  ⟨.error e, rfl, fun b => iff_of_false (fun h => by cases h) id⟩

theorem not_gives_stuck {P : α → Prop} : ¬Gives (stuck : Attempt ε α) P := by
  rintro ⟨r, h, -⟩
  cases h

theorem Gives.congr {x : Attempt ε α} {P Q : α → Prop} (h : Gives x P) (hP : ∀ a, P a ↔ Q a) :
    Gives x Q := by
  obtain ⟨r, hr, hvalue⟩ := h
  exact ⟨r, hr, fun a => (hvalue a).trans (hP a)⟩

theorem Gives.unique {x : Attempt ε α} {P Q : α → Prop} (h : Gives x P) (h' : Gives x Q) (a : α) :
    P a ↔ Q a := by
  obtain ⟨r, rfl, hvalue⟩ := h
  obtain ⟨r', hr, hvalue'⟩ := h'
  cases Option.some.inj hr
  exact (hvalue a).symm.trans (hvalue' a)

/-- The run has a value or is stuck. -/
def NoError (x : Attempt ε α) : Prop := ∀ e, x ≠ result (.error e)

theorem noError_ok (a : α) : NoError (result (.ok a) : Attempt ε α) := fun e h => by cases h

theorem noError_unwrap (x : Attempt ε α) : NoError (unwrap x) := fun e h => by
  rcases x with _ | _ | a <;> cases h

theorem NoError.bind {x : Attempt ε α} {f : α → Attempt ε β} (hx : NoError x)
    (hf : ∀ a, NoError (f a)) : NoError (x >>= f) := by
  rcases x with _ | e | a
  · exact fun e h => by cases h
  · exact absurd rfl (hx e)
  · exact hf a

/-- With enough fuel the run is always the same. -/
def Settles (f : ℕ → Attempt ε α) (x : Attempt ε α) : Prop := ∃ n, ∀ fuel, n < fuel → f fuel = x

/-- With enough fuel there is a result, and always the same one. -/
def Returns (f : ℕ → Attempt ε α) : Prop := ∃ r, Settles f (result r)

section
variable {f : ℕ → Attempt ε α} {g : ℕ → α → Attempt ε β} {x : Attempt ε α} {y : Attempt ε β}

theorem Settles.const (x : Attempt ε α) : Settles (fun _ => x) x := ⟨0, fun _ _ => rfl⟩

theorem Settles.unique {x' : Attempt ε α} (h : Settles f x) (h' : Settles f x') : x = x' := by
  obtain ⟨n, hn⟩ := h
  obtain ⟨m, hm⟩ := h'
  rw [← hn (n + m + 1) (by omega), hm (n + m + 1) (by omega)]

theorem Settles.bind {a : α} (h : Settles f (result (.ok a))) (hg : Settles (fun n => g n a) y) :
    Settles (fun n => f n >>= g n) y := by
  obtain ⟨n, hn⟩ := h
  obtain ⟨m, hm⟩ := hg
  refine ⟨n + m, fun fuel hfuel => ?_⟩
  show f fuel >>= g fuel = y
  rw [hn fuel (by omega), ok_bind]
  exact hm fuel (by omega)

theorem Settles.bind_error {e : ε} (h : Settles f (result (.error e))) :
    Settles (fun n => f n >>= g n) (result (.error e)) := by
  obtain ⟨n, hn⟩ := h
  refine ⟨n, fun fuel hfuel => ?_⟩
  show f fuel >>= g fuel = _
  rw [hn fuel hfuel, error_bind]

theorem Settles.bind_stuck (h : Settles f stuck) : Settles (fun n => f n >>= g n) stuck := by
  obtain ⟨n, hn⟩ := h
  refine ⟨n, fun fuel hfuel => ?_⟩
  show f fuel >>= g fuel = _
  rw [hn fuel hfuel, stuck_bind]

theorem Settles.map (h : Settles f x) (k : α → β) :
    Settles (fun n => f n >>= fun a => pure (k a)) (x >>= fun a => pure (k a)) := by
  obtain ⟨n, hn⟩ := h
  refine ⟨n, fun fuel hfuel => ?_⟩
  show f fuel >>= _ = _
  rw [hn fuel hfuel]

theorem map_ne_stuck (x : Attempt ε α) (k : α → β) :
    (x >>= fun a => pure (k a)) ≠ (stuck : Attempt ε β) ↔ x ≠ stuck := by
  rcases x with _ | _ | a
  · exact iff_of_false (fun h => h rfl) fun h => h rfl
  · exact iff_of_true (result_ne_stuck _) (result_ne_stuck _)
  · exact iff_of_true (result_ne_stuck _) (result_ne_stuck _)

theorem returns_iff (h : Settles f x) : Returns f ↔ x ≠ stuck := by
  constructor
  · rintro ⟨r, hr⟩
    rw [h.unique hr]
    exact result_ne_stuck r
  · intro hx
    rcases x with _ | r
    · exact absurd rfl hx
    · exact ⟨r, h⟩

end

/-- With enough fuel the run ends, and with just the values of which `P` holds. -/
def Yields (f : ℕ → Attempt ε α) (P : α → Prop) : Prop :=
  ∃ r, Settles f (result r) ∧ ∀ a, r = .ok a ↔ P a

section
variable {f : ℕ → Attempt ε α} {g : ℕ → α → Attempt ε β} {P P' : α → Prop} {Q : α → β → Prop}

theorem Yields.const (r : Except ε α) : Yields (fun _ => result r) fun a => r = .ok a :=
  ⟨r, .const _, fun _ => Iff.rfl⟩

theorem Yields.value (a : α) : Yields (fun _ => (result (.ok a) : Attempt ε α)) (· = a) :=
  ⟨.ok a, .const _, fun b => by rw [Except.ok.injEq]; exact eq_comm⟩

theorem Yields.error (e : ε) : Yields (fun _ => (result (.error e) : Attempt ε α)) fun _ => False :=
  ⟨.error e, .const _, fun b => iff_of_false (fun h => by cases h) id⟩

theorem Yields.congr (h : Yields f P) (hP : ∀ a, P a ↔ P' a) : Yields f P' := by
  obtain ⟨r, hr, hvalue⟩ := h
  exact ⟨r, hr, fun a => (hvalue a).trans (hP a)⟩

theorem Yields.bind (h : Yields f P) (hg : ∀ a, P a → Yields (fun n => g n a) (Q a)) :
    Yields (fun n => f n >>= g n) fun b => ∃ a, P a ∧ Q a b := by
  obtain ⟨r, hr, hvalue⟩ := h
  cases r with
  | error e =>
    refine ⟨.error e, hr.bind_error, fun b => iff_of_false (fun h => by cases h) ?_⟩
    rintro ⟨a, ha, -⟩
    cases (hvalue a).mpr ha
  | ok a =>
    have ha := (hvalue a).mp rfl
    obtain ⟨t, ht, hb⟩ := hg a ha
    refine ⟨t, hr.bind ht, fun b => (hb b).trans ⟨fun h => ⟨a, ha, h⟩, ?_⟩⟩
    rintro ⟨a', ha', h⟩
    rwa [Except.ok.inj ((hvalue a').mpr ha')]

theorem Yields.fails (h : Yields f P) (hnone : ∀ a, ¬P a) : ∃ e, Settles f (result (.error e)) := by
  obtain ⟨r, hr, hvalue⟩ := h
  cases r with
  | error e => exact ⟨e, hr⟩
  | ok a => exact absurd ((hvalue a).mp rfl) (hnone a)

theorem Yields.settles_iff (h : Yields f P) {a : α} : Settles f (result (.ok a)) ↔ P a := by
  obtain ⟨r, hr, hvalue⟩ := h
  rw [← hvalue a]
  constructor
  · intro ha
    have hsame := hr.unique ha
    exact Option.some.inj hsame
  · rintro rfl
    exact hr

end

/-- With enough fuel the run has just the values of which `P` holds, and a result at all just where
`S` holds. -/
structure Decides (f : ℕ → Attempt ε α) (P : α → Prop) (S : Prop) : Prop where
  value : ∀ a, Settles f (result (.ok a)) ↔ P a
  returns : Returns f ↔ S

section
variable {f : ℕ → Attempt ε α} {g : ℕ → α → Attempt ε β} {P P' : α → Prop} {Q : α → β → Prop}
variable {S S' : Prop} {T : α → Prop}

theorem Yields.decides (h : Yields f P) : Decides f P True := by
  refine ⟨fun _ => h.settles_iff, iff_true_intro ?_⟩
  obtain ⟨r, hr, -⟩ := h
  exact ⟨r, hr⟩

theorem Decides.congr (h : Decides f P S) (hP : ∀ a, P a ↔ P' a) (hS : S ↔ S') :
    Decides f P' S' :=
  ⟨fun a => (h.value a).trans (hP a), h.returns.trans hS⟩

theorem decides_stuck : Decides (fun _ => (stuck : Attempt ε α)) (fun _ => False) False := by
  refine ⟨fun a => iff_of_false (fun h => ?_) id, iff_of_false (fun h => ?_) id⟩
  · exact result_ne_stuck _ (h.unique (.const _))
  · exact (returns_iff (.const _)).mp h rfl

theorem Decides.bind {x : Attempt ε α}
    (hg : ∀ a, x = result (.ok a) → Decides (fun n => g n a) (Q a) (T a)) :
    Decides (fun n => x >>= g n) (fun b => ∃ a, x = result (.ok a) ∧ Q a b)
      (x ≠ stuck ∧ ∀ a, x = result (.ok a) → T a) := by
  rcases x with _ | e | a
  · refine decides_stuck.congr (fun b => iff_of_false id ?_) (iff_of_false id fun h => h.1 rfl)
    rintro ⟨a, h, -⟩
    cases h
  · refine (Yields.error e).decides.congr (fun b => iff_of_false id ?_) (iff_of_true trivial ?_)
    · rintro ⟨a, h, -⟩
      cases h
    · refine ⟨result_ne_stuck (.error e), fun a h => ?_⟩
      cases h
  · refine (hg a rfl).congr (fun b => ?_) ?_
    · constructor
      · exact fun h => ⟨a, rfl, h⟩
      · rintro ⟨a', h, hb⟩
        cases h
        exact hb
    · constructor
      · refine fun h => ⟨result_ne_stuck (.ok a), fun a' h' => ?_⟩
        cases h'
        exact h
      · exact fun h => h.2 a rfl

theorem Settles.bind_iff {a : α} (h : Settles f (result (.ok a))) (y : Attempt ε β) :
    Settles (fun n => f n >>= g n) y ↔ Settles (fun n => g n a) y := by
  refine ⟨?_, h.bind⟩
  rintro ⟨m, hm⟩
  obtain ⟨n, hn⟩ := h
  refine ⟨n + m, fun fuel hfuel => ?_⟩
  have hrun : f fuel >>= g fuel = y := hm fuel (by omega)
  rwa [hn fuel (by omega), ok_bind] at hrun

theorem Decides.after {a : α} {R : β → Prop} (hf : Settles f (result (.ok a)))
    (hg : Decides (fun n => g n a) R S) : Decides (fun n => f n >>= g n) R S := by
  refine ⟨fun b => (hf.bind_iff _).trans (hg.value b), Iff.trans ?_ hg.returns⟩
  exact exists_congr fun r => hf.bind_iff _

end

/-- What one turn of a loop ends with. -/
inductive Turn (σ α : Type) where
  | leave (a : α)
  | again (s : σ)

/-- `loop { .. }`, in at most `fuel` turns. -/
def loop (body : σ → Attempt ε (Turn σ α)) : ℕ → σ → Attempt ε α
  | 0, _ => stuck
  | fuel + 1, s => body s >>= fun
    | .leave a => pure a
    | .again s' => loop body fuel s'

variable {body : σ → Attempt ε (Turn σ α)} {fuel : ℕ} {s s' : σ}

theorem loop_leave {a : α} (h : body s = result (.ok (.leave a))) :
    loop body (fuel + 1) s = result (.ok a) := by
  rw [loop, h]
  rfl

theorem loop_again (h : body s = result (.ok (.again s'))) :
    loop body (fuel + 1) s = loop body fuel s' := by
  rw [loop, h]
  rfl

theorem loop_error {e : ε} (h : body s = result (.error e)) :
    loop body (fuel + 1) s = result (.error e) := by
  rw [loop, h]
  rfl

theorem loop_of_stuck (h : body s = stuck) : loop body fuel s = stuck := by
  cases fuel with
  | zero => rfl
  | succ fuel =>
    rw [loop, h]
    rfl

theorem settles_leave {a : α} (h : body s = result (.ok (.leave a))) :
    Settles (fun fuel => loop body fuel s) (result (.ok a)) := by
  refine ⟨0, fun fuel hfuel => ?_⟩
  obtain ⟨k, rfl⟩ := Nat.exists_eq_add_of_lt hfuel
  exact loop_leave h

theorem settles_error {e : ε} (h : body s = result (.error e)) :
    Settles (fun fuel => loop body fuel s) (result (.error e)) := by
  refine ⟨0, fun fuel hfuel => ?_⟩
  obtain ⟨k, rfl⟩ := Nat.exists_eq_add_of_lt hfuel
  exact loop_error h

theorem settles_stuck (h : body s = stuck) : Settles (fun fuel => loop body fuel s) stuck :=
  ⟨0, fun _ _ => loop_of_stuck h⟩

theorem settles_again {x : Attempt ε α} (h : body s = result (.ok (.again s')))
    (hx : Settles (fun fuel => loop body fuel s') x) : Settles (fun fuel => loop body fuel s) x := by
  obtain ⟨n, hn⟩ := hx
  refine ⟨n + 1, fun fuel hfuel => ?_⟩
  obtain ⟨k, rfl⟩ := Nat.exists_eq_add_of_lt hfuel
  show loop body (n + 1 + k + 1) s = x
  rw [loop_again h]
  exact hn (n + 1 + k) (by omega)

theorem yields_leave {a : α} (h : body s = result (.ok (.leave a))) :
    Yields (fun fuel => loop body fuel s) (· = a) :=
  ⟨.ok a, settles_leave h, fun b => by rw [Except.ok.injEq]; exact eq_comm⟩

theorem yields_error {e : ε} (h : body s = result (.error e)) :
    Yields (fun fuel => loop body fuel s) fun _ => False :=
  ⟨.error e, settles_error h, fun _ => iff_of_false (fun h => by cases h) id⟩

theorem yields_again {P : α → Prop} (h : body s = result (.ok (.again s')))
    (hx : Yields (fun fuel => loop body fuel s') P) : Yields (fun fuel => loop body fuel s) P := by
  obtain ⟨r, hr, hvalue⟩ := hx
  exact ⟨r, settles_again h hr, hvalue⟩

/-- A turn that does not leave the loop makes the measure less. The loop may hand its fuel on to
loops inside of it. -/
theorem loop_returns (body : ℕ → σ → Attempt ε (Turn σ α)) (measure : σ → ℕ) (I : σ → Prop) (n : ℕ)
    (hturn : ∀ {s}, I s → ∃ t, (∀ fuel, n < fuel → body fuel s = result t) ∧
      ∀ s', t = .ok (.again s') → I s' ∧ measure s' < measure s)
    (h : I s) : ∃ r, ∀ fuel fuel', n < fuel → measure s < fuel' →
      loop (body fuel) fuel' s = result r := by
  generalize hk : measure s = k
  induction k using Nat.strongRecOn generalizing s with
  | ind k ih =>
    obtain ⟨t, ht, hagain⟩ := hturn h
    cases t with
    | error e =>
      refine ⟨.error e, fun fuel fuel' hn hk => ?_⟩
      obtain ⟨j, rfl⟩ := Nat.exists_eq_add_of_lt hk
      exact loop_error (ht fuel hn)
    | ok t =>
      cases t with
      | leave a =>
        refine ⟨.ok a, fun fuel fuel' hn hk => ?_⟩
        obtain ⟨j, rfl⟩ := Nat.exists_eq_add_of_lt hk
        exact loop_leave (ht fuel hn)
      | again s' =>
        obtain ⟨hI, hless⟩ := hagain s' rfl
        obtain ⟨r, hr⟩ := ih (measure s') (hk ▸ hless) hI rfl
        refine ⟨r, fun fuel fuel' hn hlt => ?_⟩
        obtain ⟨j, rfl⟩ := Nat.exists_eq_add_of_lt hlt
        rw [loop_again (ht fuel hn)]
        exact hr fuel (k + j) hn (by omega)

theorem loop_stuck {I : σ → Prop} (hturn : ∀ {s}, I s → body s = stuck ∨
    ∃ s', body s = result (.ok (.again s')) ∧ I s') (h : I s) : loop body fuel s = stuck := by
  induction fuel generalizing s with
  | zero => rfl
  | succ fuel ih =>
    rcases hturn h with hstuck | ⟨s', hs', hI⟩
    · exact loop_of_stuck hstuck
    · rw [loop_again hs']
      exact ih hI

end Attempt
end MoveTools
