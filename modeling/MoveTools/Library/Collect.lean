import Mathlib.Data.List.Forall2
import Mathlib.Data.List.Nodup
import Mathlib.Order.Interval.Finset.Nat

namespace MoveTools.Collect

section
variable {ε α β : Type}

theorem bind_eq_ok {x : Except ε α} {f : α → Except ε β} {b : β} :
    x >>= f = .ok b ↔ ∃ a, x = .ok a ∧ f a = .ok b := by
  cases x with
  | error e => simp [bind, Except.bind]
  | ok a => simp [bind, Except.bind]

theorem map_eq_ok {x : Except ε α} {f : α → β} {b : β} :
    x.map f = .ok b ↔ ∃ a, x = .ok a ∧ f a = b := by
  cases x with
  | error e => simp [Except.map]
  | ok a => simp [Except.map]

theorem mapM_eq_ok {f : α → Except ε β} {xs : List α} {ys : List β} :
    xs.mapM f = .ok ys ↔ List.Forall₂ (fun x y => f x = .ok y) xs ys := by
  induction xs generalizing ys with
  | nil =>
    rw [List.mapM_nil, List.forall₂_nil_left_iff]
    exact ⟨fun h => (Except.ok.inj h).symm, fun h => h ▸ rfl⟩
  | cons x xs ih =>
    rw [List.mapM_cons, bind_eq_ok, List.forall₂_cons_left_iff]
    constructor
    · rintro ⟨y, hy, h⟩
      obtain ⟨zs, hzs, h⟩ := bind_eq_ok.mp h
      exact ⟨y, zs, hy, ih.mp hzs, (Except.ok.inj h).symm⟩
    · rintro ⟨y, zs, hy, hzs, rfl⟩
      exact ⟨y, hy, bind_eq_ok.mpr ⟨zs, ih.mpr hzs, rfl⟩⟩

theorem exists_mapM_eq_ok {f : α → Except ε β} {xs : List α} :
    (∃ ys, xs.mapM f = .ok ys) ↔ ∀ x ∈ xs, ∃ y, f x = .ok y := by
  simp only [mapM_eq_ok]
  induction xs with
  | nil => simp
  | cons x xs ih =>
    simp only [List.forall₂_cons_left_iff, List.forall_mem_cons, ← ih]
    constructor
    · rintro ⟨_, y, ys, hy, hys, rfl⟩
      exact ⟨⟨y, hy⟩, ys, hys⟩
    · rintro ⟨⟨y, hy⟩, ys, hys⟩
      exact ⟨_, y, ys, hy, hys, rfl⟩

end

section
variable {α β : Type*} {f : α → Option β} {l : List α}

theorem exists_of_forall₂ {r : α → β → Prop} {ys : List β} (h : List.Forall₂ r l ys) :
    ∀ y ∈ ys, ∃ x ∈ l, r x y := by
  induction h with
  | nil => exact fun _ hy => absurd hy List.not_mem_nil
  | @cons x _ xs _ hxy _ ih =>
    intro y hy
    rcases List.mem_cons.mp hy with rfl | hy
    · exact ⟨x, List.mem_cons_self, hxy⟩
    · obtain ⟨x', hx', hr⟩ := ih y hy
      exact ⟨x', List.mem_cons_of_mem x hx', hr⟩

theorem forall₂_iff_of_mapM {R : α → β → Prop} {P : α → Prop} {ys : List β}
    (h : l.mapM f = some ys) (hR : ∀ x ∈ l, ∀ y, f x = some y → (R x y ↔ P x)) :
    List.Forall₂ R l ys ↔ ∀ x ∈ l, P x := by
  induction l generalizing ys with
  | nil =>
    cases h
    simp
  | cons x l ih =>
    rw [List.mapM_cons] at h
    obtain ⟨y, hy, h⟩ := Option.bind_eq_some_iff.mp h
    obtain ⟨zs, hzs, heq⟩ := Option.bind_eq_some_iff.mp h
    cases heq
    rw [List.forall₂_cons, List.forall_mem_cons, hR x List.mem_cons_self y hy,
      ih hzs fun z hz => hR z (List.mem_cons_of_mem x hz)]

theorem map_of_mapM {γ : Type*} {g : β → γ} {h : α → γ} {ys : List β} (hys : l.mapM f = some ys)
    (hg : ∀ x ∈ l, ∀ y, f x = some y → g y = h x) : ys.map g = l.map h := by
  induction l generalizing ys with
  | nil =>
    cases hys
    rfl
  | cons x l ih =>
    rw [List.mapM_cons] at hys
    obtain ⟨y, hy, hys⟩ := Option.bind_eq_some_iff.mp hys
    obtain ⟨ys, hrest, hys⟩ := Option.bind_eq_some_iff.mp hys
    cases hys
    rw [List.map_cons, List.map_cons, hg x List.mem_cons_self y hy,
      ih hrest fun z hz => hg z (List.mem_cons_of_mem x hz)]

/-- What a search yields, where all that it may find has the same value. -/
theorem find?_map_eq {p : α → Bool} {g : α → β} {r : Option β}
    (hvalue : ∀ x ∈ l, p x → r = some (g x)) (hfound : ∀ b, r = some b → ∃ x ∈ l, p x) :
    (l.find? p).map g = r := by
  cases hfind : l.find? p with
  | some x => exact (hvalue x (List.mem_of_find?_eq_some hfind) (List.find?_some hfind)).symm
  | none =>
    symm
    rw [Option.map_none, Option.eq_none_iff_forall_not_mem]
    intro b hb
    obtain ⟨x, hx, hp⟩ := hfound b hb
    exact List.find?_eq_none.mp hfind x hx hp

theorem mapM_eq_some_filterMap (h : ∀ x ∈ l, f x ≠ none) : l.mapM f = some (l.filterMap f) := by
  induction l with
  | nil => rfl
  | cons x l ih =>
    obtain ⟨y, hy⟩ := Option.ne_none_iff_exists'.mp (h x List.mem_cons_self)
    rw [List.mapM_cons, ih fun z hz => h z (List.mem_cons_of_mem _ hz), hy,
      List.filterMap_cons_some hy]
    rfl

theorem mapM_eq_none {x : α} (hx : x ∈ l) (h : f x = none) : l.mapM f = none := by
  induction l with
  | nil => cases hx
  | cons y l ih =>
    rw [List.mapM_cons]
    rcases List.mem_cons.mp hx with rfl | hx
    · rw [h]
      rfl
    · rw [ih hx]
      cases f y <;> rfl

theorem mapM_isSome : (l.mapM f).isSome ↔ ∀ x ∈ l, (f x).isSome := by
  constructor
  · intro h x hx
    rw [Option.isSome_iff_ne_none] at h ⊢
    exact fun hnone => h (mapM_eq_none hx hnone)
  · intro h
    rw [mapM_eq_some_filterMap fun x hx => Option.isSome_iff_ne_none.mp (h x hx)]
    rfl

theorem mem_mapM {ys : List β} (h : l.mapM f = some ys) {y : β} (hy : y ∈ ys) :
    ∃ x ∈ l, f x = some y := by
  induction l generalizing ys with
  | nil =>
    cases h
    cases hy
  | cons x l ih =>
    rw [List.mapM_cons] at h
    obtain ⟨z, hz, h⟩ := Option.bind_eq_some_iff.mp h
    obtain ⟨zs, hzs, heq⟩ := Option.bind_eq_some_iff.mp h
    cases heq
    rcases List.mem_cons.mp hy with rfl | hy
    · exact ⟨x, List.mem_cons_self, hz⟩
    · obtain ⟨x', hx', hfx'⟩ := ih hzs hy
      exact ⟨x', List.mem_cons_of_mem x hx', hfx'⟩

end

/-- Lists with the same members are the same if they have the same keys in the same order. -/
theorem eq_of_perm_of_keys {α κ : Type*} {key : α → κ} {xs ys : List α} (h : xs.Perm ys)
    (hkeys : xs.map key = ys.map key) (hnodup : (ys.map key).Nodup) : xs = ys := by
  apply List.ext_getElem h.length_eq
  intro i hi hi'
  apply List.inj_on_of_nodup_map hnodup (h.mem_iff.mp (List.getElem_mem hi)) (List.getElem_mem hi')
  have hkey := congrArg (fun ks => ks[i]?) hkeys
  simpa [hi, hi'] using hkey

/-! ### Programs that only put things into a set

They are composed one behind the other, and fail on things that are not acceptable. -/

variable {α ε : Type}

/-- A program over a set, kept as a list without order. -/
abbrev CollectM (α ε : Type) := StateT (List α) (Except ε)

/-- `x` puts exactly `found` into the set, unless something in it is not acceptable. -/
structure Collects (ok : α → Prop) (x : CollectM α ε Unit) (found : List α) : Prop where
  succeeds : (∀ m ∈ found, ok m) → ∀ s, ∃ s', x.run s = .ok ((), s')
  acceptable : ∀ {s s'}, x.run s = .ok ((), s') → ∀ m ∈ found, ok m
  mem : ∀ {s s'}, x.run s = .ok ((), s') → ∀ m, m ∈ s' ↔ m ∈ s ∨ m ∈ found

variable {ok : α → Prop} {x y : CollectM α ε Unit} {found found' : List α}

theorem Collects.pure : Collects ok (Pure.pure () : CollectM α ε Unit) [] where
  succeeds _ s := ⟨s, rfl⟩
  acceptable _ m hm := by simp at hm
  mem h m := by
    cases h
    simp

theorem run_bind_eq {s s' : List α} (h : (x >>= fun _ => y).run s = .ok ((), s')) :
    ∃ s1, x.run s = .ok ((), s1) ∧ y.run s1 = .ok ((), s') := by
  rw [StateT.run_bind] at h
  cases hx : x.run s with
  | error e => simp [hx, bind, Except.bind] at h
  | ok r => exact ⟨r.2, rfl, by simpa [hx, bind, Except.bind] using h⟩

theorem Collects.seq (hx : Collects ok x found) (hy : Collects ok y found') :
    Collects ok (x >>= fun _ => y) (found ++ found') where
  succeeds hok s := by
    obtain ⟨s1, h1⟩ := hx.succeeds (fun m hm => hok m (List.mem_append_left _ hm)) s
    obtain ⟨s2, h2⟩ := hy.succeeds (fun m hm => hok m (List.mem_append_right _ hm)) s1
    refine ⟨s2, ?_⟩
    rw [StateT.run_bind, h1]
    exact h2
  acceptable h m hm := by
    obtain ⟨s1, h1, h2⟩ := run_bind_eq h
    rw [List.mem_append] at hm
    exact hm.elim (hx.acceptable h1 m) (hy.acceptable h2 m)
  mem h m := by
    obtain ⟨s1, h1, h2⟩ := run_bind_eq h
    rw [hy.mem h2, hx.mem h1, List.mem_append, or_assoc]

theorem Collects.congr (hx : Collects ok x found) (h : ∀ m, m ∈ found ↔ m ∈ found') :
    Collects ok x found' where
  succeeds hok s := hx.succeeds (fun m hm => hok m ((h m).mp hm)) s
  acceptable hr m hm := hx.acceptable hr m ((h m).mpr hm)
  mem hr m := by rw [hx.mem hr, h]

/-- `HashSet::insert` of something that may be refused. -/
def insertChecked [DecidableEq α] (m : Except ε α) : CollectM α ε Unit := fun s =>
  m.map fun m => ((), s.insert m)

theorem Collects.insertChecked [DecidableEq α] {m : α} {e : ε} [Decidable (ok m)] :
    Collects ok (insertChecked (if ok m then .ok m else .error e)) [m] where
  succeeds hok s := by
    have hm : ok m := hok m (List.mem_singleton_self m)
    exact ⟨s.insert m, by simp [Collect.insertChecked, StateT.run, hm, Except.map]⟩
  acceptable {s s'} h := by
    by_cases hm : ok m
    · simpa using hm
    · simp [Collect.insertChecked, StateT.run, hm, Except.map] at h
  mem {s s'} h := by
    by_cases hm : ok m
    · simp only [Collect.insertChecked, StateT.run, hm, if_true, Except.map, Except.ok.injEq,
        Prod.mk.injEq, true_and] at h
      intro k
      rw [← h, List.mem_insert_iff, List.mem_singleton, or_comm]
    · simp [Collect.insertChecked, StateT.run, hm, Except.map] at h

theorem exists_of_distinct {a k : ℕ} {g : ℕ → ℕ} (hlt : ∀ j < k, a < g j)
    (hle : ∀ j < k, g j ≤ a + k)
    (hinj : ∀ j < k, ∀ j' < k, g j = g j' → j = j') {n : ℕ} (hn : a < n)
    (hn' : n ≤ a + k) : ∃ j < k, g j = n := by
  have hsub : (Finset.range k).image g ⊆ Finset.Ioc a (a + k) := by
    intro q hq
    obtain ⟨j, hj, rfl⟩ := Finset.mem_image.mp hq
    have hj' := Finset.mem_range.mp hj
    exact Finset.mem_Ioc.mpr ⟨hlt j hj', hle j hj'⟩
  have hcard : ((Finset.range k).image g).card = k := by
    rw [Finset.card_image_of_injOn, Finset.card_range]
    intro j hj j' hj' h
    exact hinj j (Finset.mem_range.mp hj) j' (Finset.mem_range.mp hj') h
  have heq : (Finset.range k).image g = Finset.Ioc a (a + k) := by
    apply Finset.eq_of_subset_of_card_le hsub
    rw [hcard, Nat.card_Ioc]
    omega
  have hmem : n ∈ (Finset.range k).image g := heq ▸ Finset.mem_Ioc.mpr ⟨hn, hn'⟩
  obtain ⟨j, hj, h⟩ := Finset.mem_image.mp hmem
  exact ⟨j, Finset.mem_range.mp hj, h⟩

end MoveTools.Collect
