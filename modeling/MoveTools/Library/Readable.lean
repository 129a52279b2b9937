import Mathlib.Data.List.Basic
import Mathlib.Data.Set.Function

namespace MoveTools

/-! Printers whose values can be told from what they print, and from what follows it. -/

variable {α β γ : Type}

/-- In front of a text that may follow, each of the values prints something of its own. -/
def Readable (print : α → List γ) (P : α → Prop) (Follows : List γ → Prop) : Prop :=
  ∀ ⦃a⦄, P a → ∀ ⦃b⦄, P b → ∀ ⦃r⦄, Follows r → ∀ ⦃s⦄, Follows s →
    print a ++ r = print b ++ s → a = b ∧ r = s

namespace Readable

variable {p : α → List γ} {P P' : α → Prop} {F F' G : List γ → Prop}

theorem injOn (h : Readable p P F) (hnil : F []) : Set.InjOn p {a | P a} := by
  intro a ha b hb heq
  refine (h ha hb hnil hnil ?_).1
  rw [List.append_nil, List.append_nil]
  exact heq

theorem mono (h : Readable p P F) (hP : ∀ a, P' a → P a) (hF : ∀ r, F' r → F r) :
    Readable p P' F' :=
  fun _ ha _ hb _ hr _ hs heq => h (hP _ ha) (hP _ hb) (hF _ hr) (hF _ hs) heq

theorem tag (w : List γ) (h : Readable p P F) : Readable (fun a => w ++ p a) P F := by
  intro a ha b hb r hr s hs heq
  rw [List.append_assoc, List.append_assoc] at heq
  exact h ha hb hr hs (List.append_cancel_left heq)

theorem closed (w : List γ) (h : Readable p P F) (hw : ∀ r, F (w ++ r)) :
    Readable (fun a => p a ++ w) P fun _ => True := by
  intro a ha b hb r _ s _ heq
  rw [List.append_assoc, List.append_assoc] at heq
  obtain ⟨rfl, hrest⟩ := h ha hb (hw r) (hw s) heq
  exact ⟨rfl, List.append_cancel_left hrest⟩

/-- One value after another, of which the second may depend on the first. -/
theorem seq {q : α → β → List γ} {Q : α → β → Prop} (hp : Readable p P F)
    (hq : ∀ a, P a → Readable (q a) (Q a) G) (hF : ∀ a b r, P a → Q a b → G r → F (q a b ++ r)) :
    Readable (fun x : α × β => p x.1 ++ q x.1 x.2) (fun x => P x.1 ∧ Q x.1 x.2) G := by
  rintro ⟨a, b⟩ ⟨ha, hb⟩ ⟨a', b'⟩ ⟨ha', hb'⟩ r hr s hs heq
  rw [List.append_assoc, List.append_assoc] at heq
  obtain ⟨hsame, hrest⟩ := hp ha ha' (hF a b r ha hb hr) (hF a' b' s ha' hb' hs) heq
  replace hsame : a = a' := hsame
  subst hsame
  obtain ⟨hsame, rfl⟩ := hq a ha hb hb' hr hs hrest
  replace hsame : b = b' := hsame
  subst hsame
  exact ⟨rfl, rfl⟩

theorem comap {f : β → α} {Q : β → Prop} (h : Readable p P F) (hf : Set.InjOn f {b | Q b})
    (hQ : ∀ b, Q b → P (f b)) : Readable (fun b => p (f b)) Q F := by
  intro b hb b' hb' r hr s hs heq
  obtain ⟨hsame, rfl⟩ := h (hQ b hb) (hQ b' hb') hr hs heq
  exact ⟨hf hb hb' hsame, rfl⟩

theorem of_head (hne : ∀ a, P a → p a ≠ [])
    (hinj : ∀ a b, P a → P b → (p a).head? = (p b).head? → a = b) :
    Readable p P fun _ => True := by
  intro a ha b hb r _ s _ heq
  obtain ⟨c, w, hw⟩ := List.exists_cons_of_ne_nil (hne a ha)
  obtain ⟨d, v, hv⟩ := List.exists_cons_of_ne_nil (hne b hb)
  have hhead : (p a).head? = (p b).head? := by
    rw [hw, hv] at heq
    rw [hw, hv, (List.cons.inj heq).1]
    rfl
  obtain rfl := hinj a b ha hb hhead
  exact ⟨rfl, List.append_cancel_left heq⟩

/-- The text does not begin with a letter. -/
def Stops (letter : γ → Prop) (r : List γ) : Prop := ∀ c ∈ r.head?, ¬letter c

variable {letter : γ → Prop}

@[simp] theorem stops_nil : Stops letter [] := fun _ h => by cases h

@[simp] theorem stops_cons {c : γ} {r : List γ} : Stops letter (c :: r) ↔ ¬letter c := by
  simp [Stops]

theorem word : Readable id (fun w : List γ => ∀ c ∈ w, letter c) (Stops letter) := by
  intro u hu
  induction u with
  | nil =>
    intro v hv r hr s _ heq
    cases v with
    | nil => exact ⟨rfl, heq⟩
    | cons c v =>
      -- the other word would go on where this one has stopped
      replace heq : r = c :: (v ++ s) := heq
      rw [heq, stops_cons] at hr
      exact absurd (hv c List.mem_cons_self) hr
  | cons c u ih =>
    intro v hv r hr s hs heq
    cases v with
    | nil =>
      replace heq : c :: (u ++ r) = s := heq
      rw [← heq, stops_cons] at hs
      exact absurd (hu c List.mem_cons_self) hs
    | cons d v =>
      obtain ⟨rfl, hrest⟩ := List.cons.inj heq
      obtain ⟨rfl, rfl⟩ := ih (fun x hx => hu x (List.mem_cons_of_mem c hx))
        (fun x hx => hv x (List.mem_cons_of_mem c hx)) hr hs hrest
      exact ⟨rfl, rfl⟩

/-- Values one after the other, up to something that none of them begins with. -/
theorem many (h : Readable p P F) (hF : ∀ (l : List α) r, (∀ a ∈ l, P a) → G r → F (l.flatMap p ++ r))
    (hend : ∀ a r s, P a → G s → p a ++ r ≠ s) :
    Readable (fun l : List α => l.flatMap p) (fun l => ∀ a ∈ l, P a) G := by
  intro l hl
  induction l with
  | nil =>
    intro m hm r hr s _ heq
    cases m with
    | nil => exact ⟨rfl, heq⟩
    | cons b m =>
      change r = (b :: m).flatMap p ++ s at heq
      rw [List.flatMap_cons, List.append_assoc] at heq
      exact absurd heq.symm (hend b _ _ (hm b List.mem_cons_self) hr)
  | cons a l ih =>
    intro m hm r hr s hs heq
    cases m with
    | nil =>
      change (a :: l).flatMap p ++ r = s at heq
      rw [List.flatMap_cons, List.append_assoc] at heq
      exact absurd heq (hend a _ _ (hl a List.mem_cons_self) hs)
    | cons b m =>
      have hl' := fun x hx => hl x (List.mem_cons_of_mem a hx)
      have hm' := fun x hx => hm x (List.mem_cons_of_mem b hx)
      change (a :: l).flatMap p ++ r = (b :: m).flatMap p ++ s at heq
      rw [List.flatMap_cons, List.flatMap_cons, List.append_assoc, List.append_assoc] at heq
      obtain ⟨rfl, hrest⟩ := h (hl a List.mem_cons_self) (hm b List.mem_cons_self)
        (hF l r hl' hr) (hF m s hm' hs) heq
      obtain ⟨rfl, rfl⟩ := ih hl' hm' hr hs hrest
      exact ⟨rfl, rfl⟩

theorem separated {w : List γ} (h : Readable p P F) (hsep : ∀ r, F (w ++ r))
    (hG : ∀ r, G r → F r) (hmore : ∀ r s, G s → w ++ r ≠ s)
    (hend : ∀ a r s, P a → G s → p a ++ r ≠ s) :
    Readable (fun l : List α => w.intercalate (l.map p)) (fun l => ∀ a ∈ l, P a) G := by
  -- the first value, and then each of the others behind a separator
  have hcons : ∀ (a : α) (l : List α), w.intercalate ((a :: l).map p) =
      p a ++ l.flatMap fun b => w ++ p b := by
    intro a l
    induction l generalizing a with
    | nil => rw [List.map_singleton, List.intercalate_singleton, List.flatMap_nil, List.append_nil]
    | cons b l ih =>
      rw [List.map_cons, List.map_cons, List.intercalate_cons_cons, ← List.map_cons, ih,
        List.flatMap_cons, List.append_assoc, List.append_assoc]
  have htail : Readable (fun l : List α => l.flatMap fun b => w ++ p b)
      (fun l => ∀ a ∈ l, P a) G := by
    refine (h.tag w).many (fun l r _ hr => ?_) fun a r s _ hs heq => ?_
    · cases l with
      | nil => exact hG r hr
      | cons b l =>
        rw [List.flatMap_cons, List.append_assoc, List.append_assoc]
        exact hsep _
    · rw [List.append_assoc] at heq
      exact hmore _ s hs heq
  have hF : ∀ (l : List α) (r : List γ), G r → F ((l.flatMap fun b => w ++ p b) ++ r) := by
    intro l r hr
    cases l with
    | nil => exact hG r hr
    | cons b l =>
      rw [List.flatMap_cons, List.append_assoc, List.append_assoc]
      exact hsep _
  intro l hl m hm r hr s hs heq
  cases l with
  | nil =>
    cases m with
    | nil => exact ⟨rfl, heq⟩
    | cons b m =>
      change r = w.intercalate ((b :: m).map p) ++ s at heq
      rw [hcons, List.append_assoc] at heq
      exact absurd heq.symm (hend b _ _ (hm b List.mem_cons_self) hr)
  | cons a l =>
    cases m with
    | nil =>
      change w.intercalate ((a :: l).map p) ++ r = s at heq
      rw [hcons, List.append_assoc] at heq
      exact absurd heq (hend a _ _ (hl a List.mem_cons_self) hs)
    | cons b m =>
      change w.intercalate ((a :: l).map p) ++ r = w.intercalate ((b :: m).map p) ++ s at heq
      rw [hcons, hcons, List.append_assoc, List.append_assoc] at heq
      obtain ⟨rfl, hrest⟩ := h (hl a List.mem_cons_self) (hm b List.mem_cons_self) (hF l r hr)
        (hF m s hs) heq
      obtain ⟨rfl, rfl⟩ := htail (fun x hx => hl x (List.mem_cons_of_mem a hx))
        (fun x hx => hm x (List.mem_cons_of_mem a hx)) hr hs hrest
      exact ⟨rfl, rfl⟩

/-- The list in brackets, or nothing where it is empty. -/
def bracketed (left right : γ) (w : List γ) (p : α → List γ) : List α → List γ
  | [] => []
  | a :: l => left :: (p a ++ (l.flatMap fun b => w ++ p b) ++ [right])

theorem brackets (left : γ) {right : γ} {w : List γ} (h : Readable p P F) (hsep : ∀ r, F (w ++ r))
    (hright : ∀ r, F (right :: r)) (hne : ∀ r s, w ++ r ≠ right :: s) :
    Readable (bracketed left right w p) (fun l => ∀ a ∈ l, P a) fun r => r.head? ≠ some left := by
  have hmore : Readable (fun l : List α => l.flatMap fun b => w ++ p b) (fun l => ∀ a ∈ l, P a)
      fun r => ∃ s, r = right :: s := by
    refine (h.tag w).many (fun l r _ hr => ?_) fun a r s _ hs heq => ?_
    · obtain ⟨s, rfl⟩ := hr
      cases l with
      | nil => exact hright s
      | cons b l =>
        rw [List.flatMap_cons, List.append_assoc, List.append_assoc]
        exact hsep _
    · obtain ⟨s, rfl⟩ := hs
      rw [List.append_assoc] at heq
      exact hne _ s heq
  have hF : ∀ (l : List α) (r : List γ), F ((l.flatMap fun b => w ++ p b) ++ right :: r) := by
    intro l r
    cases l with
    | nil => exact hright r
    | cons b l =>
      rw [List.flatMap_cons, List.append_assoc, List.append_assoc]
      exact hsep _
  have hcons : ∀ (a : α) (l : List α) (r : List γ), bracketed left right w p (a :: l) ++ r =
      left :: (p a ++ ((l.flatMap fun b => w ++ p b) ++ right :: r)) := by
    intro a l r
    simp [bracketed]
  intro l hl m hm r hr s hs heq
  cases l with
  | nil =>
    cases m with
    | nil => exact ⟨rfl, heq⟩
    | cons b m =>
      replace heq : r = bracketed left right w p (b :: m) ++ s := heq
      rw [heq, hcons] at hr
      exact absurd rfl hr
  | cons a l =>
    cases m with
    | nil =>
      replace heq : bracketed left right w p (a :: l) ++ r = s := heq
      rw [← heq, hcons] at hs
      exact absurd rfl hs
    | cons b m =>
      rw [hcons, hcons] at heq
      obtain ⟨rfl, hrest⟩ := h (hl a List.mem_cons_self) (hm b List.mem_cons_self) (hF l r)
        (hF m s) (List.cons.inj heq).2
      obtain ⟨rfl, hclosed⟩ := hmore (fun x hx => hl x (List.mem_cons_of_mem a hx))
        (fun x hx => hm x (List.mem_cons_of_mem a hx)) ⟨r, rfl⟩ ⟨s, rfl⟩ hrest
      exact ⟨rfl, (List.cons.inj hclosed).2⟩

theorem flag {w : List γ} (hw : w ≠ []) : Readable (fun b : Bool => if b then w else [])
    (fun _ => True) fun r => r.head? ≠ w.head? := by
  have hno : ∀ {r s : List γ}, r.head? ≠ w.head? → w ++ s ≠ r := by
    rintro r s hr rfl
    obtain ⟨c, w, rfl⟩ := List.exists_cons_of_ne_nil hw
    exact hr rfl
  intro b _ b' _ r hr s hs heq
  cases b <;> cases b'
  · exact ⟨rfl, heq⟩
  · exact absurd heq.symm (hno hr)
  · exact absurd heq (hno hs)
  · exact ⟨rfl, List.append_cancel_left heq⟩

end Readable
end MoveTools
