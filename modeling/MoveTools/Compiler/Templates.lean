import MoveTools.Compiler.Parser

namespace MoveTools.Compiler.Parser
open Loop Splice

/-- `t` is `s` with the sender in the place of templates, and nothing else is changed. -/
def Fills (sender s t : Text) : Prop :=
  ∃ ps : List (Piece Text), sourceText ps = s ∧ targetText ps = t ∧
    ∀ old new logged, .sub old new logged ∈ ps → old ∈ templates ∧ new = sender

/-- The loops end without a panic, and no template is left. -/
def Completes (sender s : Text) (map : FileOffsetMap) : Prop :=
  ∃ x, (∃ n, ∀ fuel, n < fuel → replaceSenderPlaceholder fuel s sender map = some x) ∧
    (∀ t ∈ templates, ¬ t <:+: x.1) ∧ Fills sender s x.1

/-- A sender that has the length, and that no template reaches into from outside. -/
structure Placeable (sender : Text) : Prop where
  long : 12 < Text.len sender
  no_space : ' ' ∉ sender
  left : ∀ t ∈ templates, ∀ {u v}, t = u ++ v → u ≠ [] → v ≠ [] → ¬ v <+: sender
  right : ∀ t ∈ templates, ∀ {u v}, t = u ++ v → u ≠ [] → v ≠ [] → ¬ u <:+ sender

def kept (ps : List (Piece Text)) : ℕ := ps.countP fun
  | .keep _ => true
  | .sub .. => false

variable {sender s : Text} {map : FileOffsetMap} {x : Text × FileOffsetMap} {done : List Text}
  {n : ℕ}

theorem template_eq {t : Text} (ht : t ∈ templates) :
    ∃ m, t = '{' :: (m ++ ['}']) ∧ ('w' ∉ t ∧ 'x' ∉ t ∧ '1' ∉ t) ∧ 10 ≤ t.length := by
  rcases List.mem_cons.mp ht with rfl | ht
  · exact ⟨"{sender}".toList, by decide⟩
  · obtain rfl := List.mem_singleton.mp ht
    exact ⟨"{ sender }".toList, by decide⟩

theorem mem_of_cons_eq_append {c : Char} {t v w : Text} (h : c :: t = v ++ w) (hv : v ≠ []) :
    c ∈ v := by
  obtain ⟨d, v, rfl⟩ := List.exists_cons_of_ne_nil hv
  rw [List.cons_append] at h
  exact (List.cons.inj h).1 ▸ List.mem_cons_self ..

theorem mem_of_concat_eq_append {c : Char} {t v w : Text} (h : t ++ [c] = w ++ v) (hv : v ≠ []) :
    c ∈ v := by
  have hlast := congrArg List.getLast? h
  rw [List.getLast?_append_of_ne_nil _ hv, List.getLast?_concat] at hlast
  exact List.mem_of_getLast? hlast.symm

theorem template_len {t : Text} (ht : t ∈ templates) : Text.len t ≤ 12 := by
  revert t
  decide

theorem not_infix_template (hlong : 12 < Text.len sender) {t : Text} (ht : t ∈ templates) :
    ¬ sender <:+: t := by
  rintro ⟨a, b, hab⟩
  have hlen := congrArg Text.len hab
  have hshort := template_len ht
  simp only [Text.len_append] at hlen
  omega

theorem noOverlap_of_braceless {t w : Text} (ht : t ∈ templates)
    (hw : ∀ c ∈ w, c ≠ '{' ∧ c ≠ '}') (hnot : ¬ w <:+: t) : NoOverlap t w := by
  obtain ⟨m, rfl, -, -⟩ := template_eq ht
  refine ⟨fun hocc => (hw _ (hocc.subset List.mem_cons_self)).1 rfl, hnot, ?_, ?_⟩
  · intro u v heq hu hv hpre
    rw [← List.cons_append] at heq
    exact (hw _ (hpre.subset (mem_of_concat_eq_append heq hv))).2 rfl
  · intro u v heq hu hv hsuffix
    exact (hw _ (hsuffix.subset (mem_of_cons_eq_append heq hu))).1 rfl

theorem Placeable.noOverlap (h : Placeable sender) (hnot : ¬ "{{sender}}".toList <:+: sender)
    {t : Text} (ht : t ∈ templates) : NoOverlap t sender where
  absent := by
    rcases List.mem_cons.mp ht with rfl | ht
    · exact hnot
    · obtain rfl := List.mem_singleton.mp ht
      exact fun hocc => h.no_space (hocc.subset (by decide))
  not_inside := not_infix_template h.long ht
  left := h.left t ht
  right := h.right t ht

theorem Completes.condition (h : Completes sender s map) :
    ¬ "{{sender}}".toList <:+: sender ∨ ∀ t ∈ templates, ¬ t <:+: s := by
  obtain ⟨x, _, hnone, ps, hsource, htarget, hsub⟩ := h
  by_cases hall : ∀ y ∈ ps, ∃ w, y = .keep w
  · right
    rwa [← hsource, ← targetText_eq_sourceText hall, htarget]
  · left
    simp only [not_forall] at hall
    obtain ⟨y, hy, hnot⟩ := hall
    cases y with
    | keep w => exact absurd ⟨w, rfl⟩ hnot
    | sub old new logged =>
      obtain ⟨_, rfl⟩ := hsub old new logged hy
      intro hocc
      refine hnone _ List.mem_cons_self (hocc.trans ?_)
      obtain ⟨as, bs, rfl⟩ := List.append_of_mem hy
      rw [← htarget]
      exact ⟨targetText as, targetText bs, by simp⟩

end MoveTools.Compiler.Parser
