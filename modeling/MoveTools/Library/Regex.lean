import Mathlib.Order.Lattice
import Mathlib.Data.Nat.Basic
import Mathlib.Data.List.TakeWhile
import MoveTools.Library.Tokens

namespace MoveTools.Regex

/-- A character class repeated at least `min` and at most `max` times, as many as possible. -/
structure Item where
  cls : Char → Bool
  min : ℕ
  max : Option ℕ

def Item.one (cls : Char → Bool) : Item := ⟨cls, 1, some 1⟩

def Item.lit (c : Char) : Item := .one (· == c)

/-- The most characters of `s` that the item can take. -/
def Item.reach (it : Item) (s : Text) : ℕ :=
  let run := (s.takeWhile it.cls).length
  match it.max with
  | none => run
  | some m => Nat.min m run

/-- The ways to match a sequence of items at the start of `s`, tried from the longest repetition
down as a backtracking matcher does; the result is what each item took, and the rest. -/
def matchAt : List Item → Text → Option (List Text × Text)
  | [], s => some ([], s)
  | it :: its, s =>
    (List.range (it.reach s + 1)).reverse.findSome? fun n =>
      if it.min ≤ n then
        (matchAt its (s.drop n)).map fun x => (s.take n :: x.1, x.2)
      else none

/-- A match: the text skipped before it, what each item took, and the text after it. -/
structure Match where
  before : Text
  items : List Text
  after : Text

/-- `Regex::captures`: the leftmost match. -/
def search (its : List Item) : Text → Option Match
  | [] => (matchAt its []).map fun x => ⟨[], x.1, x.2⟩
  | c :: s =>
    match matchAt its (c :: s) with
    | some x => some ⟨[], x.1, x.2⟩
    | none => (search its s).map fun m => { m with before := c :: m.before }

theorem matchAt_append {its : List Item} {s r : Text} {xs : List Text}
    (h : matchAt its s = some (xs, r)) : s = xs.flatten ++ r ∧ xs.length = its.length := by
  induction its generalizing s r xs with
  | nil =>
    cases h
    exact ⟨rfl, rfl⟩
  | cons it its ih =>
    obtain ⟨n, _, hn⟩ := List.exists_of_findSome?_eq_some h
    split at hn
    · obtain ⟨⟨ys, r'⟩, hm, he⟩ := Option.map_eq_some_iff.mp hn
      cases he
      obtain ⟨hs, hl⟩ := ih hm
      refine ⟨?_, by simp [hl]⟩
      rw [List.flatten_cons, List.append_assoc, ← hs, List.take_append_drop]
    · cases hn

theorem matchAt_items {its : List Item} {s r : Text} {xs : List Text}
    (h : matchAt its s = some (xs, r)) :
    List.Forall₂ (fun it x => (∀ c ∈ x, it.cls c) ∧ it.min ≤ x.length ∧
      ∀ m, it.max = some m → x.length ≤ m) its xs := by
  induction its generalizing s r xs with
  | nil =>
    cases h
    exact .nil
  | cons it its ih =>
    obtain ⟨n, hn, hm⟩ := List.exists_of_findSome?_eq_some h
    split at hm
    · rename_i hmin
      obtain ⟨⟨ys, r'⟩, hrest, he⟩ := Option.map_eq_some_iff.mp hm
      cases he
      have hreach : n ≤ it.reach s := by
        simpa [Nat.lt_succ_iff] using hn
      have hrun : n ≤ (s.takeWhile it.cls).length := by
        unfold Item.reach at hreach
        split at hreach
        · exact hreach
        · exact hreach.trans (Nat.min_le_right _ _)
      have hpre : s.take n <+: s.takeWhile it.cls := by
        have := List.takeWhile_prefix it.cls (l := s)
        exact List.prefix_of_prefix_length_le (List.take_prefix n s) this
          ((List.length_take_le n s).trans hrun)
      have hlen : (s.take n).length = n := by
        rw [List.length_take]
        have := (List.takeWhile_prefix it.cls (l := s)).length_le
        omega
      refine .cons ⟨fun c hc => ?_, by omega, fun m hmax => ?_⟩ (ih hrest)
      · exact List.mem_takeWhile_imp (hpre.subset hc)
      · rw [hlen]
        simp only [Item.reach, hmax] at hreach
        exact hreach.trans (Nat.min_le_left _ _)
    · cases hm

/-- The longest repetition that works is taken. -/
theorem findSome?_reverse_range {α : Type*} {f : ℕ → Option α} {x : α} {n k : ℕ} (hle : n ≤ k)
    (hn : f n = some x) (habove : ∀ j, n < j → j ≤ k → f j = none) :
    (List.range (k + 1)).reverse.findSome? f = some x := by
  induction k with
  | zero =>
    obtain rfl : n = 0 := by omega
    simp [hn]
  | succ k ih =>
    rw [List.range_succ, List.reverse_append, List.reverse_singleton, List.singleton_append,
      List.findSome?_cons]
    by_cases hk : n = k + 1
    · subst hk
      rw [hn]
    · rw [habove (k + 1) (by omega) (Nat.le_refl _)]
      exact ih (by omega) fun j hj hjk => habove j hj (by omega)

theorem matchAt_cons {i : Item} {l : List Item} {s : Text} {n : ℕ} {x : List Text × Text}
    (hreach : n ≤ i.reach s) (hmin : i.min ≤ n) (hrest : matchAt l (s.drop n) = some x)
    (habove : ∀ j, n < j → j ≤ i.reach s → matchAt l (s.drop j) = none) :
    matchAt (i :: l) s = some (s.take n :: x.1, x.2) := by
  apply findSome?_reverse_range hreach
  · rw [if_pos hmin, hrest]
    rfl
  · intro j hj hjr
    rw [if_pos (by omega), habove j hj hjr]
    rfl

theorem Item.reach_eq {it : Item} {a b : Text} (ha : ∀ c ∈ a, it.cls c)
    (hb : ∀ c t, b = c :: t → ¬it.cls c) (hmax : ∀ m, it.max = some m → a.length ≤ m) :
    it.reach (a ++ b) = a.length := by
  have hrun : (a ++ b).takeWhile it.cls = a := by
    rw [List.takeWhile_append_of_pos ha]
    cases b with
    | nil => simp
    | cons c t => simp [hb c t rfl]
  unfold Item.reach
  rw [hrun]
  split
  · rfl
  · rename_i m hm
    exact Nat.min_eq_right (hmax m hm)

/-- An item that takes everything up to a character it cannot take. -/
theorem matchAt_cons_all {i : Item} {l : List Item} {a b : Text} {x : List Text × Text}
    (ha : ∀ c ∈ a, i.cls c) (hb : ∀ c t, b = c :: t → ¬i.cls c)
    (hmax : ∀ m, i.max = some m → a.length ≤ m) (hmin : i.min ≤ a.length)
    (hrest : matchAt l b = some x) : matchAt (i :: l) (a ++ b) = some (a :: x.1, x.2) := by
  have hreach := Item.reach_eq ha hb hmax
  have := matchAt_cons (l := l) (s := a ++ b) (x := x) hreach.ge hmin
    (by rw [List.drop_left]; exact hrest) fun j hj hjr => by omega
  rwa [List.take_left] at this

theorem matchAt_one {cls : Char → Bool} {l : List Item} {c : Char} {b : Text}
    {x : List Text × Text} (hc : cls c) (hrest : matchAt l b = some x) :
    matchAt (.one cls :: l) (c :: b) = some ([c] :: x.1, x.2) := by
  have hreach : (Item.one cls).reach (c :: b) = 1 := by
    simp [Item.reach, Item.one, hc]
  have := matchAt_cons (i := .one cls) (l := l) (s := c :: b) (n := 1) (x := x) hreach.ge
    (Nat.le_refl 1) hrest fun j hj hjr => by omega
  simpa using this

theorem matchAt_none {i : Item} {l : List Item} {s : Text} (hmin : 1 ≤ i.min)
    (hs : ∀ c t, s = c :: t → ¬i.cls c) : matchAt (i :: l) s = none := by
  cases h : matchAt (i :: l) s with
  | none => rfl
  | some x =>
    exfalso
    obtain ⟨hflat, _⟩ := matchAt_append h
    have hitems := matchAt_items h
    rcases x with ⟨_ | ⟨y, ys⟩, r⟩
    · cases hitems
    · obtain ⟨⟨hy, hlen, _⟩, _⟩ := List.forall₂_cons.mp hitems
      cases y with
      | nil =>
        simp only [List.length_nil] at hlen
        omega
      | cons c y => exact hs c _ hflat (hy c List.mem_cons_self)

theorem search_append {its : List Item} {s : Text} {m : Match} (h : search its s = some m) :
    s = m.before ++ m.items.flatten ++ m.after := by
  induction s generalizing m with
  | nil =>
    obtain ⟨x, hx, rfl⟩ := Option.map_eq_some_iff.mp h
    simpa using (matchAt_append hx).1
  | cons c s ih =>
    unfold search at h
    split at h
    · rename_i x hx
      cases h
      simpa using (matchAt_append hx).1
    · obtain ⟨m', hm, rfl⟩ := Option.map_eq_some_iff.mp h
      simp [ih hm]

theorem search_matchAt {its : List Item} {s : Text} {m : Match} (h : search its s = some m) :
    matchAt its (m.items.flatten ++ m.after) = some (m.items, m.after) := by
  induction s generalizing m with
  | nil =>
    obtain ⟨x, hx, rfl⟩ := Option.map_eq_some_iff.mp h
    simpa [← (matchAt_append hx).1] using hx
  | cons c s ih =>
    unfold search at h
    split at h
    · rename_i x hx
      cases h
      simpa [← (matchAt_append hx).1] using hx
    · obtain ⟨m', hm', rfl⟩ := Option.map_eq_some_iff.mp h
      exact ih (m := m') hm'

theorem search_of_matchAt {its : List Item} {s : Text} {x : List Text × Text}
    (h : matchAt its s = some x) : search its s = some ⟨[], x.1, x.2⟩ := by
  cases s with
  | nil => simp [search, h]
  | cons c s => simp [search, h]

theorem search_cons {its : List Item} {c : Char} {s : Text} (h : matchAt its (c :: s) = none) :
    search its (c :: s) = (search its s).map fun m => { m with before := c :: m.before } := by
  rw [search, h]

/-- Nothing matches in front of the match that is found. -/
theorem search_leftmost {its : List Item} {s w : Text} {m : Match} (h : search its s = some m)
    (hw : w ≠ []) (hsuffix : w <:+ m.before) :
    matchAt its (w ++ (m.items.flatten ++ m.after)) = none := by
  induction s generalizing m with
  | nil =>
    obtain ⟨x, -, rfl⟩ := Option.map_eq_some_iff.mp h
    exact absurd (List.suffix_nil.mp hsuffix) hw
  | cons c s ih =>
    cases hc : matchAt its (c :: s) with
    | some x =>
      rw [search, hc] at h
      cases h
      exact absurd (List.suffix_nil.mp hsuffix) hw
    | none =>
      rw [search_cons hc] at h
      obtain ⟨m', hm', heq⟩ := Option.map_eq_some_iff.mp h
      cases heq
      rcases List.suffix_cons_iff.mp hsuffix with rfl | hsuffix
      · have happ := search_append hm'
        rw [List.append_assoc] at happ
        rw [List.cons_append, ← happ]
        exact hc
      · exact ih (m := m') hm' hsuffix

/-- The positions at which a match can start, in characters. -/
def positions (its : List Item) (s : Text) : List ℕ :=
  (List.range s.length).filter fun i => (matchAt its (s.drop i)).isSome

@[simp] theorem mem_positions {its : List Item} {s : Text} {i : ℕ} :
    i ∈ positions its s ↔ i < s.length ∧ (matchAt its (s.drop i)).isSome := by
  rw [positions, List.mem_filter, List.mem_range]

theorem positions_cons (its : List Item) (c : Char) (s : Text) :
    positions its (c :: s) = (if (matchAt its (c :: s)).isSome then [0] else []) ++
      (positions its s).map (· + 1) := by
  have hrest : ((List.range s.length).map Nat.succ).filter
      (fun i => (matchAt its ((c :: s).drop i)).isSome) = (positions its s).map (· + 1) := by
    rw [List.filter_map]
    rfl
  rw [positions, List.length_cons, List.range_succ_eq_map, List.filter_cons, hrest, List.drop_zero]
  split <;> rfl

theorem positions_append {its : List Item} {u v : Text}
    (h : ∀ w, w ≠ [] → w <:+ u → matchAt its (w ++ v) = none) :
    positions its (u ++ v) = (positions its v).map (· + u.length) := by
  induction u with
  | nil => simp
  | cons c u ih =>
    have hhead := h (c :: u) (List.cons_ne_nil c u) (List.suffix_refl _)
    have hrest := ih fun w hw hsuffix => h w hw (hsuffix.trans (List.suffix_cons c u))
    rw [List.cons_append] at hhead ⊢
    rw [positions_cons, hhead, hrest, List.map_map]
    rfl

theorem positions_match {its : List Item} {c : Char} {s : Text}
    (h : (matchAt its (c :: s)).isSome) :
    positions its (c :: s) = 0 :: (positions its s).map (· + 1) := by
  rw [positions_cons, if_pos h]
  rfl

theorem positions_eq_nil {its : List Item} {s : Text} (h : search its s = none) :
    positions its s = [] := by
  induction s with
  | nil => rfl
  | cons c s ih =>
    have hc : matchAt its (c :: s) = none := by
      cases hmatch : matchAt its (c :: s) with
      | none => rfl
      | some x =>
        rw [search_of_matchAt hmatch] at h
        cases h
    rw [search_cons hc, Option.map_eq_none_iff] at h
    rw [positions_cons, hc, ih h]
    rfl

theorem search_none {it : Item} {its : List Item} {s : Text} (hmin : 1 ≤ it.min)
    (hs : ∀ c ∈ s, ¬it.cls c) : search (it :: its) s = none := by
  induction s with
  | nil =>
    rw [search, matchAt_none hmin (by simp)]
    rfl
  | cons c s ih =>
    have hhead : matchAt (it :: its) (c :: s) = none := by
      apply matchAt_none hmin
      intro d t hd
      cases hd
      exact hs c List.mem_cons_self
    rw [search_cons hhead, ih fun d hd => hs d (List.mem_cons_of_mem _ hd)]
    rfl

/-- `Regex::captures_iter`: the matches from left to right, each searched for after the one
before. Enough fuel for matches that take at least one character is the length of the text. -/
def findAll (its : List Item) : ℕ → Text → List Match
  | 0, _ => []
  | fuel + 1, s =>
    match search its s with
    | none => []
    | some m => m :: findAll its fuel m.after

theorem findAll_none {its : List Item} {s : Text} (h : search its s = none) (n : ℕ) :
    findAll its n s = [] := by
  cases n with
  | zero => rfl
  | succ n => rw [findAll, h]

theorem findAll_one {its : List Item} {s : Text} {m : Match} {n : ℕ} (hn : 0 < n)
    (h : search its s = some m) (hend : search its m.after = none) : findAll its n s = [m] := by
  obtain ⟨k, rfl⟩ := Nat.exists_eq_add_of_lt hn
  rw [Nat.zero_add, findAll, h]
  exact congrArg (m :: ·) (findAll_none hend k)

/-- A capture group made of the items from `lo` to `hi`: its text, and where it ends. -/
structure Capture where
  text : Text
  stop : ℕ

def Match.capture (m : Match) (lo hi : ℕ) (offset : ℕ) : Capture where
  text := ((m.items.take hi).drop lo).flatten
  stop := offset + Text.len m.before + Text.len (m.items.take hi).flatten

/-- `String::replace_range` on the range of a group. -/
def Match.replaceCapture (m : Match) (lo hi : ℕ) (replacement : Text) : Text :=
  m.before ++ (m.items.take lo).flatten ++ replacement ++ (m.items.drop hi).flatten ++ m.after

/-- The group of each match, the first of which is searched for at byte `offset`. -/
def captures (lo hi : ℕ) : ℕ → List Match → List Capture
  | _, [] => []
  | offset, m :: ms =>
    m.capture lo hi offset ::
      captures lo hi (offset + Text.len m.before + Text.len m.items.flatten) ms

variable {it : Item}
open Text

theorem matchAt_short {w t : Text} (hw : ∀ c ∈ w, it.cls c) (ht : ∀ c u, t = c :: u → ¬ it.cls c)
    (hmax : it.max = none) (hlen : w.length < it.min) : matchAt [it] (w ++ t) = none := by
  have hreach : it.reach (w ++ t) = w.length := Item.reach_eq hw ht (by simp [hmax])
  apply List.findSome?_eq_none_iff.mpr
  intro n hn
  rw [hreach, List.mem_reverse, List.mem_range] at hn
  exact if_neg (by omega)

theorem search_short {w t : Text} (hw : ∀ c ∈ w, it.cls c) (ht : ∀ c u, t = c :: u → ¬ it.cls c)
    (hmax : it.max = none) (hlen : w.length < it.min) :
    search [it] (w ++ t) = (search [it] t).map fun m => { m with before := w ++ m.before } := by
  induction w with
  | nil => simp
  | cons c w ih =>
    obtain ⟨_, hw'⟩ := List.forall_mem_cons.mp hw
    rw [List.length_cons] at hlen
    have hpass : matchAt [it] (c :: (w ++ t)) = none := matchAt_short hw ht hmax hlen
    rw [List.cons_append, search_cons hpass, ih hw' (by omega), Option.map_map]
    rfl

theorem search_delimiter {c : Char} (hc : ¬ it.cls c) (hmin : 1 ≤ it.min) (t : Text) :
    search [it] (c :: t) = (search [it] t).map fun m => { m with before := c :: m.before } := by
  apply search_cons
  apply matchAt_none hmin
  rintro d u heq
  cases heq
  exact hc

theorem search_run {w t : Text} (hw : ∀ c ∈ w, it.cls c) (ht : ∀ c u, t = c :: u → ¬ it.cls c)
    (hmax : it.max = none) (hlen : it.min ≤ w.length) :
    search [it] (w ++ t) = some ⟨[], [w], t⟩ := by
  have hend : matchAt [] t = some ([], t) := rfl
  exact search_of_matchAt (matchAt_cons_all hw ht (by simp [hmax]) hlen hend)

theorem findAll_skip {its : List Item} {w s t : Text}
    (h : search its s = (search its t).map fun m => { m with before := w ++ m.before }) (n : ℕ) :
    (findAll its n s).map Match.items = (findAll its n t).map Match.items := by
  cases n with
  | zero => rfl
  | succ n =>
    rw [findAll, findAll, h]
    cases search its t <;> rfl

/-- A class repeated without bound finds the runs that are long enough. -/
theorem findAll_join (hmin : 1 ≤ it.min) (hmax : it.max = none) {w : Text} {ys : List (Char × Text)}
    (h : IsCut it.cls (w, ys)) {n : ℕ} (hn : (join (w, ys)).length ≤ n) :
    (findAll [it] n (join (w, ys))).map Match.items =
      ((w :: ys.map Prod.snd).filter (it.min ≤ ·.length)).map ([·]) := by
  obtain ⟨hw, hys⟩ := h
  replace hw : ∀ c ∈ w, it.cls c := hw
  induction ys generalizing w n with
  | nil =>
    have hjoin : join (w, []) = w ++ [] := rfl
    have hend : search [it] [] = none := search_none hmin (List.forall_mem_nil _)
    have ht : ∀ c u, ([] : Text) = c :: u → ¬ it.cls c := by simp
    rw [hjoin, List.length_append] at hn
    rw [hjoin]
    by_cases hlen : it.min ≤ w.length
    · rw [findAll_one (by simp at hn; omega) (search_run hw ht hmax hlen) hend]
      simp [hlen]
    · rw [findAll_skip (search_short hw ht hmax (by omega)), findAll_none hend]
      simp [hlen]
  | cons y ys ih =>
    obtain ⟨⟨hc, hy⟩, hys⟩ := List.forall_mem_cons.mp hys
    have hjoin : join (w, y :: ys) = w ++ y.1 :: join (y.2, ys) := rfl
    have ht : ∀ c u, y.1 :: join (y.2, ys) = c :: u → ¬ it.cls c := by
      rintro c u heq
      cases heq
      exact hc
    have hnext := search_delimiter hc hmin (join (y.2, ys))
    rw [hjoin, List.length_append, List.length_cons] at hn
    rw [hjoin, List.map_cons]
    -- a run that is long enough is found, a shorter one is passed over with its delimiter
    by_cases hlen : it.min ≤ w.length
    · obtain ⟨k, rfl⟩ := Nat.exists_eq_add_of_lt (show 0 < n by omega)
      have hrest := ih (n := 0 + k) (by omega) hys hy
      rw [findAll, search_run hw ht hmax hlen, List.map_cons, findAll_skip (w := [y.1]) hnext, hrest,
        List.filter_cons_of_pos (a := w) (by simpa using hlen)]
      rfl
    · have hrest := ih (n := n) (by omega) hys hy
      rw [findAll_skip (search_short hw ht hmax (by omega)), findAll_skip (w := [y.1]) hnext, hrest,
        List.filter_cons_of_neg (a := w) (by simpa using hlen)]

theorem findAll_tokens (hmin : 1 ≤ it.min) (hmax : it.max = none) (s : Text) :
    (findAll [it] s.length s).map Match.items =
      ((tokens it.cls s).filter (it.min ≤ ·.length)).map ([·]) := by
  have hjoin : join ((cut it.cls s).1, (cut it.cls s).2) = s := join_cut s
  have h := findAll_join hmin hmax (isCut_cut s) (Nat.le_of_eq (congrArg List.length hjoin))
  rwa [hjoin] at h

theorem captures_text (lo hi offset : ℕ) (ms : List Match) :
    (captures lo hi offset ms).map Capture.text =
      ms.map fun m => ((m.items.take hi).drop lo).flatten := by
  induction ms generalizing offset with
  | nil => rfl
  | cons m ms ih =>
    rw [captures, List.map_cons, ih]
    rfl

end MoveTools.Regex
