import Mathlib.Data.Nat.Basic

namespace MoveTools.Loop

variable {σ : Type*}

/-- `while let Some(s') = next(s) { s = s' }` in at most `fuel` tests. The body may panic: `none`
stands for a panic, and for running out of fuel. -/
def whileLet (next : σ → Option (Option σ)) : ℕ → σ → Option σ
  | 0, _ => none
  | fuel + 1, s =>
    match next s with
    | none => none
    | some none => some s
    | some (some s') => whileLet next fuel s'

/-- The loop ends, and with any fuel above its measure in one and the same state. -/
theorem whileLet_ends {next : σ → Option (Option σ)} {I : ℕ → σ → Prop}
    (hstep : ∀ {n s}, I n s →
      next s = some none ∨ ∃ m s', m < n ∧ next s = some (some s') ∧ I m s')
    {n : ℕ} {s : σ} (h : I n s) :
    ∃ m s', m ≤ n ∧ I m s' ∧ next s' = some none ∧
      ∀ fuel, n < fuel → whileLet next fuel s = some s' := by
  induction n using Nat.strong_induction_on generalizing s with
  | _ n ih =>
    rcases hstep h with hend | ⟨m, s', hm, hnext, hI⟩
    · refine ⟨n, s, le_rfl, h, hend, fun fuel hf => ?_⟩
      obtain ⟨k, rfl⟩ := Nat.exists_eq_add_of_lt hf
      simp [whileLet, hend]
    · obtain ⟨k, r, hk, hr, hend, hrun⟩ := ih m hm hI
      refine ⟨k, r, by omega, hr, hend, fun fuel hf => ?_⟩
      obtain ⟨j, rfl⟩ := Nat.exists_eq_add_of_lt hf
      simp only [whileLet, hnext]
      exact hrun _ (by omega)

theorem whileLet_preserves {next : σ → Option (Option σ)} {I : σ → Prop}
    (hstep : ∀ {s s'}, next s = some (some s') → I s → I s') {fuel : ℕ} {s t : σ}
    (hrun : whileLet next fuel s = some t) (h : I s) : I t := by
  induction fuel generalizing s with
  | zero => cases hrun
  | succ fuel ih =>
    rw [whileLet] at hrun
    split at hrun
    · cases hrun
    · cases hrun
      exact h
    · rename_i s' hnext
      exact ih hrun (hstep hnext h)

end MoveTools.Loop
