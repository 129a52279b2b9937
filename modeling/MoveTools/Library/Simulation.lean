import MoveTools.Library.Attempt

namespace MoveTools.Simulation

open Attempt

/-! A machine is a loop that makes one step a turn. It simulates a program that has loops of its own
if it does what the program does, and needs no less fuel. -/

variable {ε α β γ σ S : Type} {step : S → Attempt ε (Turn S α)} {fuel m n : ℕ} {s s' s'' : S}

def Leads (step : S → Attempt ε (Turn S α)) (s s' : S) : Prop :=
  ∃ n, ∀ fuel, loop step (n + fuel) s = loop step fuel s'

def Fails (step : S → Attempt ε (Turn S α)) (s : S) (e : ε) : Prop :=
  ∃ n, ∀ fuel, loop step (n + fuel) s = result (.error e)

theorem Leads.refl (step : S → Attempt ε (Turn S α)) (s : S) : Leads step s s :=
  ⟨0, fun fuel => by rw [Nat.zero_add]⟩

theorem Leads.next (h : step s = result (.ok (.again s'))) (h' : Leads step s' s'') :
    Leads step s s'' := by
  obtain ⟨n, hn⟩ := h'
  refine ⟨n + 1, fun fuel => ?_⟩
  rw [Nat.add_right_comm, loop_again h]
  exact hn fuel

theorem Leads.trans (h : Leads step s s') (h' : Leads step s' s'') : Leads step s s'' := by
  obtain ⟨n, hn⟩ := h
  obtain ⟨m, hm⟩ := h'
  refine ⟨n + m, fun fuel => ?_⟩
  rw [Nat.add_assoc, hn, hm]

theorem Leads.fails {e : ε} (h : Leads step s s') (h' : Fails step s' e) : Fails step s e := by
  obtain ⟨n, hn⟩ := h
  obtain ⟨m, hm⟩ := h'
  refine ⟨n + m, fun fuel => ?_⟩
  rw [Nat.add_assoc, hn, hm]

theorem loop_more {r : Except ε α} (h : loop step n s = result r) (hle : n ≤ m) :
    loop step m s = result r := by
  induction n generalizing m s with
  | zero => exact absurd h.symm (result_ne_stuck r)
  | succ n ih =>
    obtain ⟨m, rfl⟩ := Nat.exists_eq_add_of_le' (Nat.lt_of_lt_of_le (Nat.succ_pos n) hle)
    rw [loop] at h ⊢
    rcases hturn : step s with _ | e | a | s'
    all_goals rw [hturn] at h
    · exact h
    · exact h
    · exact h
    · exact ih h (Nat.le_of_succ_le_succ hle)

theorem loop_less (h : loop step m s = stuck) (hle : n ≤ m) : loop step n s = stuck := by
  rcases hn : loop step n s with _ | r
  · rfl
  · exact absurd ((loop_more hn hle).symm.trans h) (result_ne_stuck r)

theorem Leads.stuck (h : Leads step s s') (hs : loop step fuel s' = stuck) :
    loop step fuel s = stuck := by
  obtain ⟨n, hn⟩ := h
  exact loop_less ((hn fuel).trans hs) (Nat.le_add_left fuel n)

/-- From `s` the machine runs through the program and leaves it where `exit` says. -/
def Simulates (step : S → Attempt ε (Turn S α)) (program : ℕ → Attempt ε β) (s : S)
    (exit : β → S) : Prop :=
  ∀ fuel, match program fuel with
    | none => loop step fuel s = stuck
    | some (.ok b) => Leads step s (exit b)
    | some (.error e) => Fails step s e

section
variable {program : ℕ → Attempt ε β} {exit : β → S}

theorem Simulates.ok (h : Simulates step program s exit) {b : β}
    (hb : program fuel = result (.ok b)) : Leads step s (exit b) := by
  have := h fuel
  rwa [hb] at this

theorem Simulates.error (h : Simulates step program s exit) {e : ε}
    (he : program fuel = result (.error e)) : Fails step s e := by
  have := h fuel
  rwa [he] at this

theorem Simulates.none (h : Simulates step program s exit) (hn : program fuel = Attempt.stuck) :
    loop step fuel s = Attempt.stuck := by
  have := h fuel
  rwa [hn] at this

theorem Simulates.intro
    (hok : ∀ fuel b, program fuel = result (.ok b) → Leads step s (exit b))
    (herror : ∀ fuel e, program fuel = result (.error e) → Fails step s e)
    (hnone : ∀ fuel, program fuel = Attempt.stuck → loop step fuel s = Attempt.stuck) :
    Simulates step program s exit := by
  intro fuel
  rcases h : program fuel with _ | e | b
  · exact hnone fuel h
  · exact herror fuel e h
  · exact hok fuel b h

theorem Simulates.pure (b : β) (h : exit b = s) : Simulates step (fun _ => Pure.pure b) s exit :=
  fun _ => h ▸ .refl step _

/-- One step of the machine is all of the program. -/
theorem Simulates.of_step (x : Attempt ε β) (hx : x ≠ Attempt.stuck)
    (h : step s = x >>= fun b => result (.ok (.again (exit b)))) :
    Simulates step (fun _ => x) s exit := by
  intro fuel
  rcases x with _ | e | b
  · exact absurd rfl hx
  · refine ⟨1, fun fuel => ?_⟩
    rw [Nat.add_comm]
    exact loop_error h
  · exact .next h (.refl step _)

theorem Simulates.after (h : Simulates step program s' exit) (hlead : Leads step s s') :
    Simulates step program s exit :=
  .intro (fun _ _ hb => hlead.trans (h.ok hb)) (fun _ _ he => hlead.fails (h.error he))
    fun _ hn => hlead.stuck (h.none hn)

theorem Simulates.bind {more : ℕ → β → Attempt ε γ} {exit' : γ → S}
    (h : Simulates step program s exit)
    (h' : ∀ b, Simulates step (fun fuel => more fuel b) (exit b) exit') :
    Simulates step (fun fuel => program fuel >>= more fuel) s exit' := by
  intro fuel
  show match program fuel >>= more fuel with
    | .none => _
    | some (.ok c) => _
    | some (.error e) => _
  rcases hx : program fuel with _ | e | b
  · exact h.none hx
  · exact h.error hx
  · have hlead := h.ok hx
    show match more fuel b with
      | .none => _
      | some (.ok c) => _
      | some (.error e) => _
    rcases hy : more fuel b with _ | e | c
    · exact hlead.stuck ((h' b).none hy)
    · exact hlead.fails ((h' b).error hy)
    · exact hlead.trans ((h' b).ok hy)

theorem Simulates.congr {program' : ℕ → Attempt ε β} (h : Simulates step program s exit)
    (heq : ∀ fuel, program' fuel = program fuel) : Simulates step program' s exit := by
  intro fuel
  rw [heq]
  exact h fuel

theorem Simulates.leads {exit' : β → S} (h : Simulates step program s exit)
    (hlead : ∀ b, Leads step (exit b) (exit' b)) : Simulates step program s exit' :=
  .intro (fun _ b hb => (h.ok hb).trans (hlead b)) (fun _ _ he => h.error he) fun _ hn => h.none hn

theorem Simulates.of_map {program' : ℕ → Attempt ε γ} (h : Simulates step program s exit)
    (g : γ → β) (hg : ∀ fuel, program fuel = program' fuel >>= fun c => Pure.pure (g c)) :
    Simulates step program' s fun c => exit (g c) := by
  have hmap : ∀ fuel x, program' fuel = x → program fuel = x >>= fun c => Pure.pure (g c) :=
    fun fuel x hx => hx ▸ hg fuel
  exact .intro (fun fuel _ hc => h.ok (hmap fuel _ hc)) (fun fuel _ he => h.error (hmap fuel _ he))
    fun fuel hn => h.none (hmap fuel _ hn)

/-- Where a turn of the program's loop leads into the machine. -/
def turnExit (leave : β → S) (again : σ → S) : Turn σ β → S
  | .leave b => leave b
  | .again x => again x

/-- A loop whose body is simulated, if the machine makes a step on its way back. -/
theorem Simulates.loop {body : ℕ → σ → Attempt ε (Turn σ β)} {enter back : σ → S}
    (hbody : ∀ x, Simulates step (fun fuel => body fuel x) (enter x) (turnExit exit back))
    (hback : ∀ x, step (back x) = result (.ok (.again (enter x)))) (x : σ) :
    Simulates step (fun fuel => Attempt.loop (body fuel) fuel x) (enter x) exit := by
  intro fuel
  suffices h : ∀ turns ≤ fuel, ∀ x, match Attempt.loop (body fuel) turns x with
      | .none => Attempt.loop step turns (enter x) = Attempt.stuck
      | some (.ok b) => Leads step (enter x) (exit b)
      | some (.error e) => Fails step (enter x) e from h fuel (Nat.le_refl fuel) x
  intro turns
  induction turns with
  | zero => exact fun _ x => rfl
  | succ turns ih =>
    intro hle x
    have hturn := hbody x
    rcases hx : body fuel x with _ | e | b | x'
    · rw [loop_of_stuck hx]
      exact loop_less (hturn.none hx) hle
    · rw [loop_error hx]
      exact hturn.error hx
    · rw [loop_leave hx]
      exact hturn.ok hx
    · have hlead : Leads step (enter x) (back x') := hturn.ok hx
      have hagain : Leads step (enter x) (enter x') := hlead.trans (.next (hback x') (.refl step _))
      have hrest := ih (Nat.le_of_succ_le hle) x'
      rw [loop_again hx]
      rcases hy : Attempt.loop (body fuel) turns x' with _ | e | b
      all_goals rw [hy] at hrest
      · refine hlead.stuck ?_
        rw [loop_again (hback x')]
        exact hrest
      · exact hagain.fails hrest
      · exact hagain.trans hrest

/-- A simulated program ends just when the machine ends, and with the same result. -/
theorem Simulates.result_iff (h : Simulates step program s exit) {finish : β → α}
    (hexit : ∀ b, step (exit b) = result (.ok (.leave (finish b)))) (r : Except ε α) :
    (∃ fuel, Attempt.loop step fuel s = result r) ↔
      ∃ fuel b, program fuel = result b ∧ b.map finish = r := by
  have hfound : ∀ fuel b, program fuel = result b →
      ∃ n, ∀ m, n < m → Attempt.loop step m s = result (b.map finish) := by
    intro fuel b hb
    cases b with
    | error e =>
      obtain ⟨n, hn⟩ := h.error hb
      refine ⟨n, fun m hm => ?_⟩
      obtain ⟨k, rfl⟩ := Nat.exists_eq_add_of_lt hm
      exact hn (k + 1)
    | ok b =>
      obtain ⟨n, hn⟩ := h.ok hb
      refine ⟨n, fun m hm => ?_⟩
      obtain ⟨k, rfl⟩ := Nat.exists_eq_add_of_lt hm
      rw [Nat.add_assoc, hn, loop_leave (hexit b)]
      rfl
  constructor
  · rintro ⟨fuel, hr⟩
    rcases hx : program fuel with _ | b
    · exact absurd ((h.none hx).symm.trans hr).symm (result_ne_stuck r)
    · obtain ⟨n, hn⟩ := hfound fuel b hx
      have hsame := hn (n + 1 + fuel) (by omega)
      rw [loop_more hr (Nat.le_add_left fuel (n + 1))] at hsame
      exact ⟨fuel, b, hx, (Option.some.inj hsame).symm⟩
  · rintro ⟨fuel, b, hb, rfl⟩
    obtain ⟨n, hn⟩ := hfound fuel b hb
    exact ⟨n + 1, hn (n + 1) (Nat.lt_succ_self n)⟩

end

end MoveTools.Simulation
