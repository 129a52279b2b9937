import Mathlib.Data.List.Induction

namespace MoveTools.Runs

variable {σ α : Type*}

/-- The runs of a step function from `s₀`, where every step meets a condition on what has happened
so far, on the state and on the input. -/
inductive Run (step : σ → α → Option σ) (ok : List α → σ → α → Prop) (s₀ : σ) :
    List α → σ → Prop
  | start : Run step ok s₀ [] s₀
  | next {history : List α} {s s' : σ} {a : α} (h : Run step ok s₀ history s) (hok : ok history s a)
      (hstep : step s a = some s') : Run step ok s₀ (history ++ [a]) s'

variable {step : σ → α → Option σ} {ok : List α → σ → α → Prop} {s₀ : σ}

/-- What holds at the start and is kept by every step holds in every state reached. -/
theorem Run.invariant {I : List α → σ → Prop} (hstart : I [] s₀)
    (hstep : ∀ {history s s' a}, I history s → ok history s a → step s a = some s' →
      I (history ++ [a]) s') {history : List α} {s : σ} (h : Run step ok s₀ history s) :
    I history s := by
  induction h with
  | start => exact hstart
  | next _ hok hs ih => exact hstep ih hok hs

theorem Run.of_foldlM {inputs : List α} {s : σ} (hok : ∀ a ∈ inputs, ∀ history s, ok history s a)
    (h : inputs.foldlM step s₀ = some s) : Run step ok s₀ inputs s := by
  induction inputs using List.reverseRecOn generalizing s with
  | nil =>
    cases h
    exact .start
  | append_singleton inputs a ih =>
    rw [List.foldlM_append] at h
    obtain ⟨s1, h1, h2⟩ := Option.bind_eq_some_iff.mp h
    rw [List.foldlM_cons] at h2
    obtain ⟨s2, h3, h4⟩ := Option.bind_eq_some_iff.mp h2
    cases h4
    exact .next (ih (fun b hb => hok b (List.mem_append_left _ hb)) h1) (hok a (by simp) _ _) h3

theorem foldlM_preserves {I : σ → Prop} {inputs : List α} {s s' : σ}
    (hstep : ∀ {s s' a}, a ∈ inputs → step s a = some s' → I s → I s')
    (h : inputs.foldlM step s = some s') (hs : I s) : I s' := by
  induction inputs generalizing s with
  | nil =>
    cases h
    exact hs
  | cons a inputs ih =>
    rw [List.foldlM_cons] at h
    obtain ⟨s1, hfirst, hrest⟩ := Option.bind_eq_some_iff.mp h
    apply ih (fun hb => hstep (List.mem_cons_of_mem a hb)) hrest
    exact hstep List.mem_cons_self hfirst hs

end MoveTools.Runs
