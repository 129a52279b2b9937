import Mathlib.Data.List.Basic

namespace MoveTools.Effects

variable {ε σ α β : Type}

/-- From a state with `P`, the program returns with `Q`, or fails with `E` of the error and of the
state that it leaves behind. -/
def Triple (P : σ → Prop) (x : EStateM ε σ α) (Q : α → σ → Prop) (E : ε → σ → Prop) : Prop :=
  ∀ s, P s → match x s with
    | .ok a s' => Q a s'
    | .error e s' => E e s'

variable {P P' : σ → Prop} {x : EStateM ε σ α} {f : α → EStateM ε σ β} {Q Q' : α → σ → Prop}
  {R : β → σ → Prop} {E E' : ε → σ → Prop}

theorem Triple.ok (h : Triple P x Q E) {s s' : σ} {a : α} (hs : P s) (hx : x s = .ok a s') :
    Q a s' := by
  have := h s hs
  rwa [hx] at this

theorem Triple.error (h : Triple P x Q E) {s s' : σ} {e : ε} (hs : P s) (hx : x s = .error e s') :
    E e s' := by
  have := h s hs
  rwa [hx] at this

theorem Triple.intro (hok : ∀ s, P s → ∀ a s', x s = .ok a s' → Q a s')
    (herr : ∀ s, P s → ∀ e s', x s = .error e s' → E e s') : Triple P x Q E := by
  intro s hs
  cases hx : x s with
  | ok a s' => exact hok s hs a s' hx
  | error e s' => exact herr s hs e s' hx

theorem Triple.consequence (h : Triple P x Q E) (hP : ∀ s, P' s → P s)
    (hQ : ∀ a s, Q a s → Q' a s) (hE : ∀ e s, E e s → E' e s) : Triple P' x Q' E' :=
  .intro (fun s hs a s' hx => hQ a s' (h.ok (hP s hs) hx))
    (fun s hs e s' hx => hE e s' (h.error (hP s hs) hx))

theorem Triple.pure {a : α} (h : ∀ s, P s → Q a s) :
    Triple P (Pure.pure a : EStateM ε σ α) Q E :=
  fun s hs => h s hs

theorem Triple.throw {e : ε} (h : ∀ s, P s → E e s) :
    Triple P (throw e : EStateM ε σ α) Q E :=
  fun s hs => h s hs

theorem bind_ok {s s' : σ} {a : α} (h : x s = .ok a s') : (x >>= f) s = f a s' := by
  simp [bind, EStateM.bind, h]

theorem bind_error {s s' : σ} {e : ε} (h : x s = .error e s') : (x >>= f) s = .error e s' := by
  simp [bind, EStateM.bind, h]

theorem Triple.bind (hx : Triple P x Q E) (hf : ∀ a, Triple (Q a) (f a) R E) :
    Triple P (x >>= f) R E := by
  intro s hs
  cases h : x s with
  | ok a s' =>
    rw [bind_ok h]
    exact hf a s' (hx.ok hs h)
  | error e s' =>
    rw [bind_error h]
    exact hx.error hs h

theorem Triple.of_fact {fact : Prop} (h : fact → Triple P x Q E) :
    Triple (fun s => P s ∧ fact) x Q E :=
  fun s hs => h hs.2 s hs.1

/-- Only what the first program can return matters to the second. -/
theorem bind_congr_ok {g : α → EStateM ε σ β} (h : ∀ s a s', x s = .ok a s' → f a = g a) :
    x >>= f = x >>= g := by
  funext s
  cases hx : x s with
  | ok a s' => rw [bind_ok hx, bind_ok hx, h s a s' hx]
  | error e s' => rw [bind_error hx, bind_error hx]

theorem forM_congr {g g' : α → EStateM ε σ PUnit} {l : List α} (h : ∀ a ∈ l, g a = g' a) :
    forM l g = forM l g' := by
  induction l with
  | nil => rfl
  | cons a l ih =>
    rw [List.forM_cons, List.forM_cons, h a List.mem_cons_self,
      ih fun b hb => h b (List.mem_cons_of_mem a hb)]

/-- `x` returns with `P`, or fails with `E`. -/
def Outcome (x : Except ε α) (P : α → Prop) (E : ε → Prop) : Prop :=
  match x with
  | .ok a => P a
  | .error e => E e

section
variable {x : Except ε α} {P P' : α → Prop} {Q : β → Prop} {E : ε → Prop}

theorem Outcome.ok {a : α} (h : P a) : Outcome (.ok a) P E := h

theorem Outcome.mono (h : Outcome x P E) (hP : ∀ a, P a → P' a) : Outcome x P' E := by
  cases x with
  | ok a => exact hP a h
  | error e => exact h

theorem Outcome.bind {f : α → Except ε β} (h : Outcome x P E)
    (hf : ∀ a, P a → Outcome (f a) Q E) : Outcome (x >>= f) Q E := by
  cases x with
  | ok a => exact hf a h
  | error e => exact h

theorem Outcome.exists_ok (h : Outcome x P E) (hne : ∀ e, E e → x ≠ .error e) :
    ∃ a, x = .ok a ∧ P a := by
  cases x with
  | ok a => exact ⟨a, rfl, h⟩
  | error e => exact absurd rfl (hne e h)

end

/-- Both give results, which are related, or neither does. -/
def Agree (R : α → β → Prop) : Except ε α → Option β → Prop
  | .ok a, some b => R a b
  | .error _, none => True
  | _, _ => False

section
variable {γ δ : Type} {R R' : α → β → Prop} {S : γ → δ → Prop} {x : Except ε α} {y : Option β}

theorem Agree.ok {a : α} {b : β} (h : R a b) : Agree R (.ok a : Except ε α) (some b) := h

theorem Agree.error (R : α → β → Prop) (e : ε) : Agree R (.error e) none := trivial

theorem Agree.mono (h : Agree R x y) (hR : ∀ a b, R a b → R' a b) : Agree R' x y := by
  cases x <;> cases y
  case ok.some a b => exact hR a b h
  all_goals exact h

theorem Agree.bind {k : α → Except ε γ} {k' : β → Option δ} (h : Agree R x y)
    (hk : ∀ a b, R a b → Agree S (k a) (k' b)) : Agree S (x >>= k) (y.bind k') := by
  cases x <;> cases y
  case ok.some a b => exact hk a b h
  case error.none e => exact .error S e
  all_goals exact h.elim

theorem Agree.map_left {S : γ → β → Prop} {k : α → γ} (h : Agree R x y)
    (hk : ∀ a b, R a b → S (k a) b) : Agree S (x >>= fun a => .ok (k a)) y := by
  cases x <;> cases y
  case ok.some a b => exact hk a b h
  case error.none e => exact .error S e
  all_goals exact h.elim

theorem Agree.map_right {S : α → δ → Prop} {g : β → δ} (h : Agree R x y)
    (hg : ∀ a b, R a b → S a (g b)) : Agree S x (y.map g) := by
  cases x <;> cases y
  case ok.some a b => exact hg a b h
  case error.none e => exact .error S e
  all_goals exact h.elim

theorem Agree.map {k : α → γ} {g : β → δ} (h : Agree R x y)
    (hk : ∀ a b, R a b → S (k a) (g b)) : Agree S (x >>= fun a => .ok (k a)) (y.map g) := by
  have hright : Agree (fun a d => S (k a) d) x (y.map g) := h.map_right hk
  exact hright.map_left fun _ _ hd => hd

theorem Agree.isSome_iff (h : Agree R x y) : y.isSome ↔ ∃ a, x = .ok a := by
  cases x <;> cases y
  case ok.some a b => exact iff_of_true rfl ⟨a, rfl⟩
  case error.none e => exact iff_of_false (fun h => by cases h) fun ⟨a, h⟩ => by cases h
  all_goals exact h.elim

end

end MoveTools.Effects
