import MoveTools.Library.Text

namespace MoveTools.Text

variable (p : Char → Bool)

/-- The characters with `p` at the start of a text, and every other character together with
those that follow it. -/
def cut : Text → Text × List (Char × Text)
  | [] => ([], [])
  | c :: s =>
    let x := cut s
    if p c then (c :: x.1, x.2) else ([], (c, x.1) :: x.2)

def join (x : Text × List (Char × Text)) : Text := x.1 ++ x.2.flatMap fun y => y.1 :: y.2

/-- The maximal runs of characters with `p`. Between two adjacent delimiters stands the
empty one. -/
def tokens (s : Text) : List Text := (cut p s).1 :: (cut p s).2.map Prod.snd

def mapTokens (f : Text → Text) (s : Text) : Text :=
  join (f (cut p s).1, (cut p s).2.map (Prod.map id f))

/-- `a` stands in `s` as a whole token, or not at all. -/
def OnlyWhole (a s : Text) : Prop := a <:+: s → (∀ c ∈ a, p c) ∧ ∀ w ∈ tokens p s, a <:+: w → w = a

def IsCut (x : Text × List (Char × Text)) : Prop :=
  (∀ c ∈ x.1, p c) ∧ ∀ y ∈ x.2, ¬ p y.1 ∧ ∀ c ∈ y.2, p c

def KeepsTokens (f : Text → Text) : Prop := ∀ w, (∀ c ∈ w, p c) → ∀ c ∈ f w, p c

variable {p}

@[simp] theorem join_cut (s : Text) : join (cut p s) = s := by
  induction s with
  | nil => rfl
  | cons c s ih =>
    simp only [cut]
    split
    · exact congrArg (c :: ·) ih
    · exact congrArg (c :: ·) ih

theorem isCut_cut (s : Text) : IsCut p (cut p s) := by
  induction s with
  | nil => simp [cut, IsCut]
  | cons c s ih =>
    by_cases hc : p c
    · rw [cut, if_pos hc]
      exact ⟨List.forall_mem_cons.mpr ⟨hc, ih.1⟩, ih.2⟩
    · rw [cut, if_neg hc]
      exact ⟨List.forall_mem_nil _, List.forall_mem_cons.mpr ⟨⟨hc, ih.1⟩, ih.2⟩⟩

theorem cut_append {w : Text} (hw : ∀ c ∈ w, p c) (s : Text) :
    cut p (w ++ s) = (w ++ (cut p s).1, (cut p s).2) := by
  induction w with
  | nil => rfl
  | cons c w ih =>
    obtain ⟨hc, hw⟩ := List.forall_mem_cons.mp hw
    rw [List.cons_append, cut, if_pos hc, ih hw]
    rfl

theorem cut_join {x : Text × List (Char × Text)} (h : IsCut p x) : cut p (join x) = x := by
  obtain ⟨w, ys⟩ := x
  obtain ⟨hw, hys⟩ := h
  induction ys generalizing w with
  | nil =>
    rw [join, cut_append hw]
    simp [cut]
  | cons y ys ih =>
    obtain ⟨⟨hc, hy⟩, hys⟩ := List.forall_mem_cons.mp hys
    rw [join, cut_append hw, List.flatMap_cons, List.cons_append, cut, if_neg hc]
    have hrest : cut p (y.2 ++ ys.flatMap fun y => y.1 :: y.2) = (y.2, ys) := ih y.2 hy hys
    rw [hrest, List.append_nil]

theorem mem_tokens_isToken {w s : Text} (h : w ∈ tokens p s) : ∀ c ∈ w, p c := by
  have hcut := isCut_cut (p := p) s
  rcases List.mem_cons.mp h with rfl | h
  · exact hcut.1
  · obtain ⟨y, hy, rfl⟩ := List.mem_map.mp h
    exact (hcut.2 y hy).2

theorem mem_tokens_infix {w s : Text} (h : w ∈ tokens p s) : w <:+: s := by
  have hs : (cut p s).1 ++ (cut p s).2.flatMap (fun y => y.1 :: y.2) = s := join_cut s
  rcases List.mem_cons.mp h with rfl | h
  · exact ⟨[], _, hs⟩
  · obtain ⟨y, hy, rfl⟩ := List.mem_map.mp h
    obtain ⟨as, bs, hsplit⟩ := List.append_of_mem hy
    rw [hsplit] at hs
    exact ⟨(cut p s).1 ++ as.flatMap (fun y => y.1 :: y.2) ++ [y.1],
      bs.flatMap fun y => y.1 :: y.2, by simpa using hs⟩

theorem IsCut.map {f : Text → Text} (hf : KeepsTokens p f) {x : Text × List (Char × Text)}
    (h : IsCut p x) : IsCut p (f x.1, x.2.map (Prod.map id f)) := by
  refine ⟨hf _ h.1, fun y hy => ?_⟩
  obtain ⟨z, hz, rfl⟩ := List.mem_map.mp hy
  exact ⟨(h.2 z hz).1, hf _ (h.2 z hz).2⟩

theorem cut_mapTokens {f : Text → Text} (hf : KeepsTokens p f) (s : Text) :
    cut p (mapTokens p f s) = (f (cut p s).1, (cut p s).2.map (Prod.map id f)) :=
  cut_join ((isCut_cut s).map hf)

theorem mapTokens_mapTokens {f : Text → Text} (hf : KeepsTokens p f) (g : Text → Text) (s : Text) :
    mapTokens p g (mapTokens p f s) = mapTokens p (g ∘ f) s := by
  rw [mapTokens, cut_mapTokens hf, mapTokens, List.map_map, Prod.map_comp_map]
  rfl

/-- Two rewritings that put no delimiters in give the same text only if they agree on
every token. -/
theorem mapTokens_eq_iff {f g : Text → Text} (hf : KeepsTokens p f) (hg : KeepsTokens p g)
    (s : Text) : mapTokens p f s = mapTokens p g s ↔ ∀ w ∈ tokens p s, f w = g w := by
  rw [tokens, List.forall_mem_cons, List.forall_mem_map]
  constructor
  · intro h
    have hcut := congrArg (cut p) h
    rw [cut_mapTokens hf, cut_mapTokens hg, Prod.mk.injEq, List.map_inj_left] at hcut
    exact ⟨hcut.1, fun y hy => (Prod.mk.inj (hcut.2 y hy)).2⟩
  · rintro ⟨h, hs⟩
    have hmap : (cut p s).2.map (Prod.map id f) = (cut p s).2.map (Prod.map id g) :=
      List.map_congr_left fun y hy => Prod.ext rfl (hs y hy)
    rw [mapTokens, mapTokens, h, hmap]

theorem mapTokens_congr {f g : Text → Text} {s : Text} (h : ∀ w ∈ tokens p s, f w = g w) :
    mapTokens p f s = mapTokens p g s := by
  rw [tokens, List.forall_mem_cons, List.forall_mem_map] at h
  have hmap : (cut p s).2.map (Prod.map id f) = (cut p s).2.map (Prod.map id g) :=
    List.map_congr_left fun y hy => Prod.ext rfl (h.2 y hy)
  rw [mapTokens, mapTokens, h.1, hmap]

@[simp] theorem mapTokens_id (s : Text) : mapTokens p id s = s := by
  rw [mapTokens, Prod.map_id, List.map_id]
  exact join_cut s

theorem infix_mapTokens {w : Text} (f : Text → Text) {s : Text} (h : w ∈ tokens p s) :
    f w <:+: mapTokens p f s := by
  rcases List.mem_cons.mp h with rfl | h
  · exact (List.prefix_append _ _).isInfix
  · obtain ⟨y, hy, rfl⟩ := List.mem_map.mp h
    obtain ⟨before, after, hsplit⟩ := List.append_of_mem hy
    refine ⟨f (cut p s).1 ++ (before.flatMap fun y => y.1 :: f y.2) ++ [y.1],
      after.flatMap fun y => y.1 :: f y.2, ?_⟩
    simp [mapTokens, join, hsplit, List.flatMap_map]

theorem prefix_of_prefix_append_cons {pat w s : Text} {c : Char} (hc : c ∉ pat)
    (h : pat <+: w ++ c :: s) : pat <+: w := by
  rcases List.prefix_or_prefix_of_prefix h (List.prefix_append w _) with hp | ⟨e, rfl⟩
  · exact hp
  · cases e with
    | nil => simp
    | cons d e =>
      -- the pattern would go on with `c`
      have he : d :: e <+: c :: s := (List.prefix_append_right_inj w).mp h
      obtain ⟨rfl, _⟩ := List.cons_prefix_cons.mp he
      simp at hc

theorem replace_append_cons {pat : Text} (hpat : pat ≠ []) (rep : Text) {c : Char} (hc : c ∉ pat)
    (w s : Text) : replace (w ++ c :: s) pat rep = replace w pat rep ++ c :: replace s pat rep := by
  induction w using pattern_induction hpat with
  | nil => exact replace_cons_of_not_mem hpat hc
  | occurrence w ih =>
    rw [List.append_assoc, replace, replace, replaceFrom_pat hpat, replaceFrom_pat hpat,
      List.append_assoc]
    exact congrArg (rep ++ ·) ih
  | other d w hp ih =>
    have hlong : ¬ pat <+: d :: (w ++ c :: s) := fun h => hp (prefix_of_prefix_append_cons hc h)
    rw [List.cons_append, replace, replace, replaceFrom_cons_of_not_prefix hlong,
      replaceFrom_cons_of_not_prefix hp]
    exact congrArg (d :: ·) ih

theorem join_cons (w : Text) (c : Char) (v : Text) (ys : List (Char × Text)) :
    join (w, (c, v) :: ys) = w ++ c :: join (v, ys) := rfl

theorem replace_join {pat : Text} (hpat : pat ≠ []) (rep : Text) {x : Text × List (Char × Text)}
    (h : ∀ y ∈ x.2, y.1 ∉ pat) :
    replace (join x) pat rep =
      join (replace x.1 pat rep, x.2.map (Prod.map id (replace · pat rep))) := by
  obtain ⟨w, ys⟩ := x
  induction ys generalizing w with
  | nil => simp [join]
  | cons y ys ih =>
    obtain ⟨hc, hys⟩ := List.forall_mem_cons.mp h
    rw [join_cons, replace_append_cons hpat rep hc, ih y.2 hys]
    rfl

theorem replace_mapTokens {pat : Text} (hpat : pat ≠ []) (rep : Text) (hp : ∀ c ∈ pat, p c)
    (f : Text → Text) (s : Text) :
    replace (mapTokens p f s) pat rep = mapTokens p (fun w => replace (f w) pat rep) s := by
  have hcut := (isCut_cut (p := p) s).2
  have hpass : ∀ y ∈ (cut p s).2.map (Prod.map id f), y.1 ∉ pat := by
    intro y hy hmem
    obtain ⟨z, hz, rfl⟩ := List.mem_map.mp hy
    exact (hcut z hz).1 (hp _ hmem)
  rw [mapTokens, replace_join hpat rep hpass, mapTokens, List.map_map, Prod.map_comp_map]
  rfl

/-- Within a text, tokens are rewritten one by one. -/
theorem replace_eq_mapTokens {pat : Text} (hpat : pat ≠ []) (rep : Text) (hp : ∀ c ∈ pat, p c)
    (s : Text) : replace s pat rep = mapTokens p (replace · pat rep) s := by
  conv_lhs => rw [← mapTokens_id (p := p) s]
  exact replace_mapTokens hpat rep hp id s

theorem replace_self {pat : Text} (hpat : pat ≠ []) (rep : Text) : replace pat pat rep = rep := by
  have h := replaceFrom_pat hpat rep []
  rw [List.append_nil] at h
  rw [replace, h]
  exact List.append_nil rep

theorem replace_of_onlyWhole {a s : Text} (ha : a ≠ []) (r : Text) (h : OnlyWhole p a s) :
    replace s a r = mapTokens p (fun w => if w = a then r else w) s := by
  by_cases hs : a <:+: s
  · obtain ⟨hp, hw⟩ := h hs
    rw [replace_eq_mapTokens ha r hp]
    refine mapTokens_congr fun w hmem => ?_
    by_cases hwa : a <:+: w
    · rw [hw w hmem hwa, if_pos rfl, replace_self ha]
    · have hne : w ≠ a := fun heq => hwa (heq ▸ List.infix_rfl)
      rw [if_neg hne, replace_of_absent hwa]
  · have hid : mapTokens p (fun w => if w = a then r else w) s = mapTokens p id s := by
      refine mapTokens_congr fun w hmem => ?_
      have hne : w ≠ a := fun heq => hs (heq ▸ mem_tokens_infix hmem)
      rw [if_neg hne, id]
    have hsame : replace s a r = s := replace_of_absent hs
    rw [hsame, hid, mapTokens_id]

theorem len_join_mono {f g : Text → Text} {w : Text} {ys : List (Char × Text)}
    (hlen : ∀ v ∈ w :: ys.map Prod.snd, len (g v) ≤ len (f v)) :
    len (join (g w, ys.map (Prod.map id g))) ≤ len (join (f w, ys.map (Prod.map id f))) := by
  induction ys generalizing w with
  | nil => simpa [join] using hlen
  | cons y ys ih =>
    obtain ⟨hw, hys⟩ := List.forall_mem_cons.mp hlen
    simp only [List.map_cons, Prod.map, id, join_cons, len_append, len_cons]
    have := ih hys
    omega

/-- Of two rewritings, one of which makes no token shorter than the other. -/
theorem mapTokens_eq_iff_of_len {f g : Text → Text} {s : Text}
    (hlen : ∀ w ∈ tokens p s, len (g w) ≤ len (f w)) :
    mapTokens p f s = mapTokens p g s ↔ ∀ w ∈ tokens p s, f w = g w := by
  refine ⟨fun h => ?_, mapTokens_congr⟩
  unfold mapTokens tokens at *
  generalize cut p s = x at *
  obtain ⟨w, ys⟩ := x
  induction ys generalizing w with
  | nil => simpa [join] using h
  | cons y ys ih =>
    obtain ⟨hw, hys⟩ := List.forall_mem_cons.mp hlen
    simp only [List.map_cons, Prod.map, id, join_cons] at h
    have hfirst : len (g w) ≤ len (f w) := hw
    have hrest := len_join_mono hys
    have htotal := congrArg len h
    simp only [len_append, len_cons] at htotal
    obtain ⟨heq, htail⟩ := append_inj_of_len h (by omega)
    exact List.forall_mem_cons.mpr ⟨heq, ih y.2 hys (List.cons.inj htail).2⟩

end MoveTools.Text
