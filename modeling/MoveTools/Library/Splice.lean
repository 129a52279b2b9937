import Mathlib.Data.Int.Basic
import Mathlib.Tactic.Ring

namespace MoveTools.Splice

/-- A text rewritten by substitutions is a row of pieces: kept stretches, and substituted
ones with what they held before and after. `logged` tells whether a shift was recorded. -/
inductive Piece (α : Type*) where
  | keep (w : α)
  | sub (old new : α) (logged : Bool)
  deriving DecidableEq, Repr

variable {α β : Type*}

def Piece.source : Piece α → α
  | keep w => w
  | sub old _ _ => old

def Piece.target : Piece α → α
  | keep w => w
  | sub _ new _ => new

@[simp] theorem Piece.source_keep (w : α) : (Piece.keep w).source = w := rfl

@[simp] theorem Piece.source_sub (old new : α) (l : Bool) : (Piece.sub old new l).source = old := rfl

@[simp] theorem Piece.target_keep (w : α) : (Piece.keep w).target = w := rfl

@[simp] theorem Piece.target_sub (old new : α) (l : Bool) : (Piece.sub old new l).target = new := rfl

def Piece.map (f : α → β) : Piece α → Piece β
  | keep w => keep (f w)
  | sub old new l => sub (f old) (f new) l

@[simp] theorem Piece.source_map (f : α → β) (x : Piece α) : (x.map f).source = f x.source := by
  cases x <;> rfl

@[simp] theorem Piece.target_map (f : α → β) (x : Piece α) : (x.map f).target = f x.target := by
  cases x <;> rfl

def sourceText (ps : List (Piece (List α))) : List α := ps.flatMap Piece.source

def targetText (ps : List (Piece (List α))) : List α := ps.flatMap Piece.target

/-- `SamePoint ps p q`: position `p` of the rewritten text and position `q` of the original
one are the same point. Nothing strictly inside a substituted piece has a counterpart. -/
inductive SamePoint : List (Piece ℕ) → ℕ → ℕ → Prop
  | start (ps : List (Piece ℕ)) : SamePoint ps 0 0
  | inside {w p : ℕ} (ps : List (Piece ℕ)) (h : p ≤ w) : SamePoint (.keep w :: ps) p p
  | skip (x : Piece ℕ) {ps : List (Piece ℕ)} {p q : ℕ} (h : SamePoint ps p q) :
      SamePoint (x :: ps) (x.target + p) (x.source + q)

def sourceLen (ps : List (Piece ℕ)) : ℕ := (ps.map Piece.source).sum

def targetLen (ps : List (Piece ℕ)) : ℕ := (ps.map Piece.target).sum

theorem SamePoint.end (ps : List (Piece ℕ)) : SamePoint ps (targetLen ps) (sourceLen ps) := by
  induction ps with
  | nil => exact .start []
  | cons x ps ih => simpa [targetLen, sourceLen] using SamePoint.skip x ih

theorem samePoint_nil {p q : ℕ} : SamePoint [] p q ↔ p = 0 ∧ q = 0 := by
  constructor
  · intro h
    cases h
    exact ⟨rfl, rfl⟩
  · rintro ⟨rfl, rfl⟩
    exact .start []

theorem samePoint_append {as bs : List (Piece ℕ)} {p q : ℕ} :
    SamePoint (as ++ bs) p q ↔ SamePoint as p q ∨
      ∃ p' q', SamePoint bs p' q' ∧ p = targetLen as + p' ∧ q = sourceLen as + q' := by
  induction as generalizing p q with
  | nil =>
    constructor
    · intro h
      exact .inr ⟨p, q, by simpa using h, by simp [targetLen], by simp [sourceLen]⟩
    · rintro (h | ⟨p', q', h, rfl, rfl⟩)
      · obtain ⟨rfl, rfl⟩ := samePoint_nil.mp h
        exact .start _
      · simpa [targetLen, sourceLen] using h
  | cons x as ih =>
    constructor
    · intro h
      cases h with
      | start => exact .inl (.start _)
      | inside _ hw => exact .inl (.inside _ hw)
      | skip _ h =>
        rcases ih.mp h with ha | ⟨p', q', hb, rfl, rfl⟩
        · exact .inl (.skip x ha)
        · exact .inr ⟨p', q', hb, by simp [targetLen]; ring, by simp [sourceLen]; ring⟩
    · rintro (h | ⟨p', q', h, rfl, rfl⟩)
      · cases h with
        | start => exact .start _
        | inside _ hw => exact .inside _ hw
        | skip _ h => exact .skip x (ih.mpr (.inl h))
      · have := SamePoint.skip x (ih.mpr (.inr ⟨p', q', h, rfl, rfl⟩))
        simpa [targetLen, sourceLen, add_assoc] using this

theorem SamePoint.le {ps : List (Piece ℕ)} {p q : ℕ} (h : SamePoint ps p q) :
    p ≤ targetLen ps := by
  induction h with
  | start => exact Nat.zero_le _
  | inside ps hw =>
    simp only [targetLen, List.map_cons, List.sum_cons, Piece.target]
    omega
  | skip x _ ih =>
    simp only [targetLen, List.map_cons, List.sum_cons] at ih ⊢
    omega

@[simp] theorem sourceText_append (ps qs : List (Piece (List α))) :
    sourceText (ps ++ qs) = sourceText ps ++ sourceText qs := by
  simp [sourceText]

@[simp] theorem targetText_append (ps qs : List (Piece (List α))) :
    targetText (ps ++ qs) = targetText ps ++ targetText qs := by
  simp [targetText]

@[simp] theorem sourceText_cons (x : Piece (List α)) (ps : List (Piece (List α))) :
    sourceText (x :: ps) = x.source ++ sourceText ps := by
  simp [sourceText]

@[simp] theorem targetText_cons (x : Piece (List α)) (ps : List (Piece (List α))) :
    targetText (x :: ps) = x.target ++ targetText ps := by
  simp [targetText]

@[simp] theorem sourceText_nil : sourceText ([] : List (Piece (List α))) = [] := rfl

@[simp] theorem targetText_nil : targetText ([] : List (Piece (List α))) = [] := rfl

/-- A place in the rewritten text is between two pieces, or properly inside one. -/
theorem targetText_eq_append {ps : List (Piece (List α))} {a b : List α}
    (h : targetText ps = a ++ b) :
    (∃ qs rs, ps = qs ++ rs ∧ targetText qs = a ∧ targetText rs = b) ∨
      ∃ qs x rs u v, ps = qs ++ x :: rs ∧ x.target = u ++ v ∧ u ≠ [] ∧ v ≠ [] ∧
        a = targetText qs ++ u ∧ b = v ++ targetText rs := by
  simp only [targetText, List.flatMap_def] at h ⊢
  rcases List.flatten_eq_append_iff.mp h with ⟨as, bs, hps, rfl, rfl⟩ |
    ⟨as, bs, c, cs, ds, hps, rfl, rfl⟩
  · obtain ⟨qs, rs, rfl, rfl, rfl⟩ := List.map_eq_append_iff.mp hps
    exact .inl ⟨qs, rs, rfl, rfl, rfl⟩
  · obtain ⟨qs, rs, rfl, rfl, hrs⟩ := List.map_eq_append_iff.mp hps
    obtain ⟨x, rs, rfl, hx, rfl⟩ := List.map_eq_cons_iff.mp hrs
    cases bs with
    | nil => exact .inl ⟨qs, x :: rs, rfl, by simp, by simp [hx]⟩
    | cons b bs =>
      exact .inr ⟨qs, x, rs, b :: bs, c :: cs, rfl, hx, by simp, by simp, rfl, rfl⟩

theorem targetText_eq_sourceText {ps : List (Piece (List α))}
    (h : ∀ x ∈ ps, ∃ w, x = .keep w) : targetText ps = sourceText ps := by
  induction ps with
  | nil => rfl
  | cons x ps ih =>
    obtain ⟨w, rfl⟩ := h _ (List.mem_cons_self ..)
    rw [targetText_cons, sourceText_cons, ih fun y hy => h y (List.mem_cons_of_mem _ hy)]
    rfl

/-- Neither stands in the other, and where both stand in one text they share no place. -/
structure NoOverlap (t w : List α) : Prop where
  absent : ¬ t <:+: w
  not_inside : ¬ w <:+: t
  left : ∀ {u v}, t = u ++ v → u ≠ [] → v ≠ [] → ¬ v <+: w
  right : ∀ {u v}, t = u ++ v → u ≠ [] → v ≠ [] → ¬ u <:+ w

theorem NoOverlap.avoids {t w : List α} (h : NoOverlap t w) {a b : List α}
    (hocc : t <:+: a ++ w ++ b) :
    t <:+: a ∨ t <:+: b := by
  rcases List.infix_append_iff_ne_nil.mp hocc with haw | hb | ⟨u, v, hu, hv, ht, hsuffix, hpre⟩
  · rcases List.infix_append_iff_ne_nil.mp haw with ha | hw | ⟨u, v, hu, hv, ht, _, hpre⟩
    · exact .inl ha
    · exact absurd hw h.absent
    · exact absurd hpre (h.left ht hu hv)
  · exact .inr hb
  · rcases List.suffix_or_suffix_of_suffix hsuffix (List.suffix_append a w) with huw | hwu
    · exact absurd huw (h.right ht hu hv)
    · refine absurd (hwu.isInfix.trans ?_) h.not_inside
      rw [ht]
      exact (List.prefix_append u v).isInfix

/-- Where the kept pieces are single elements, an occurrence of a text that is apart from what
was put in consists of kept pieces. -/
theorem isolated {t a b : List α} {ps : List (Piece (List α))}
    (hkeep : ∀ w, .keep w ∈ ps → ∃ c, w = [c])
    (hsub : ∀ old new l, .sub old new l ∈ ps → NoOverlap t new) (h : targetText ps = a ++ t ++ b) :
    ∃ as ms bs, ps = as ++ ms ++ bs ∧ targetText as = a ∧ targetText ms = t ∧
      targetText bs = b ∧ ∀ y ∈ ms, ∃ c, y = .keep [c] := by
  have hcut : ∀ {y u v}, y ∈ ps → y.target = u ++ v → u ≠ [] → v ≠ [] → NoOverlap t (u ++ v) := by
    intro y u v hy huv hu hv
    cases y with
    | keep w =>
      obtain ⟨c, rfl⟩ := hkeep w hy
      rcases List.append_eq_singleton_iff.mp huv.symm with ⟨hnil, -⟩ | ⟨-, hnil⟩
      · exact absurd hnil hu
      · exact absurd hnil hv
    | sub old new l =>
      rw [← huv]
      exact hsub old new l hy
  rw [List.append_assoc] at h
  -- the start is not inside a piece
  rcases targetText_eq_append h with ⟨as, rs, rfl, ha, hrs⟩ |
    ⟨as, y, rs, u, v, rfl, hy, hu, hv, -, htb⟩
  swap
  · have hno := hcut (by simp) hy hu hv
    rcases List.append_eq_append_iff.mp htb with ⟨w, rfl, _⟩ | ⟨w, rfl, _⟩
    · exact absurd ⟨u, w, by simp⟩ hno.absent
    · by_cases hw : w = []
      · subst hw
        exact absurd ⟨u, [], by simp⟩ hno.absent
      · exact absurd (List.suffix_append u v) (hno.right rfl hv hw)
  -- nor is the end
  rcases targetText_eq_append hrs with ⟨ms, bs, rfl, hms, hb⟩ |
    ⟨ms, y, bs, u, v, rfl, hy, hu, hv, htu, -⟩
  swap
  · have hno := hcut (by simp) hy hu hv
    by_cases hms : targetText ms = []
    · rw [hms, List.nil_append] at htu
      exact absurd ⟨[], v, by simp [htu]⟩ hno.absent
    · exact absurd (List.prefix_append u v) (hno.left htu hms hu)
  refine ⟨as, ms, bs, by simp, ha, hms, hb, fun y hy => ?_⟩
  cases y with
  | keep w =>
    obtain ⟨c, rfl⟩ := hkeep w (by simp [hy])
    exact ⟨c, rfl⟩
  | sub old new l =>
    refine absurd ?_ (hsub old new l (by simp [hy])).not_inside
    obtain ⟨xs, ys, rfl⟩ := List.append_of_mem hy
    rw [← hms]
    exact ⟨targetText xs, targetText ys, by simp⟩

/-- A shift `(a, d)` leaves positions before `a` alone and moves the others by `d`. -/
structure ShiftRule (tr : ℕ × ℤ → ℕ → ℕ) : Prop where
  before : ∀ {a : ℕ} {d : ℤ} {p : ℕ}, p < a → tr (a, d) p = p
  after : ∀ {a : ℕ} {d : ℤ} {p r : ℕ}, a ≤ p → (p : ℤ) + d = r → tr (a, d) p = r

/-- The shifts are undone from the last recorded one to the first. -/
def unwind (tr : ℕ × ℤ → ℕ → ℕ) (shifts : List (ℕ × ℤ)) (p : ℕ) : ℕ := shifts.foldr tr p

/-- What a rewriter records that knows only the original text: for each logged piece the end
of the old contents, counted from `e` in the original text, and how much shorter it became. -/
def endShifts (e : ℕ) : List (Piece ℕ) → List (ℕ × ℤ)
  | [] => []
  | .keep w :: ps => endShifts (e + w) ps
  | .sub old _ false :: ps => endShifts (e + old) ps
  | .sub old new true :: ps => (e + old, (old : ℤ) - new) :: endShifts (e + old) ps

/-- When such shifts find the way back. The pieces start at `e` in the original text and at
`t` in the rewritten one. An unlogged substitution has to keep its length; a logged one that
changes its length has to start before the place where its old contents ended, and must not
end before that place. -/
def Recoverable (e t : ℕ) : List (Piece ℕ) → Prop
  | [] => True
  | .keep w :: ps => Recoverable (e + w) (t + w) ps
  | .sub old new false :: ps => old = new ∧ Recoverable (e + old) (t + new) ps
  | .sub old new true :: ps =>
    (old ≠ new → t < e + old ∧ e + old ≤ t + new) ∧ Recoverable (e + old) (t + new) ps

/-- No replacement is more than twice as long as what it replaces. -/
def AtMostDoubled (ps : List (Piece ℕ)) : Prop := ∀ x ∈ ps, x.target ≤ 2 * x.source

section
variable {tr : ℕ × ℤ → ℕ → ℕ}

theorem ShiftRule.zero (h : ShiftRule tr) (a p : ℕ) : tr (a, 0) p = p := by
  by_cases hp : p < a
  · exact h.before hp
  · exact h.after (by omega) (by simp)

/-- Some pieces are merged into one substituted piece. A shift recorded between the start and
the end of the new piece leads back to the row as it was before. -/
theorem SamePoint.unmerge (h : ShiftRule tr) {as ms bs : List (Piece ℕ)} {new a p q : ℕ} {l : Bool}
    (hlo : targetLen as < a) (hhi : a ≤ targetLen as + new)
    (hpq : SamePoint (as ++ .sub (sourceLen ms) new l :: bs) p q) :
    SamePoint (as ++ ms ++ bs) (tr (a, (targetLen ms : ℤ) - new) p) q := by
  rw [List.append_assoc, samePoint_append]
  rcases samePoint_append.mp hpq with has | ⟨p', q', hsub, rfl, rfl⟩
  · have := has.le
    rw [h.before (by omega)]
    exact .inl has
  · cases hsub with
    | start =>
      rw [h.before (by omega)]
      exact .inl (SamePoint.end as)
    | skip _ hbs =>
      rename_i p q
      simp only [Piece.target, Piece.source]
      rw [h.after (r := targetLen as + (targetLen ms + p)) (by omega) (by push_cast; ring)]
      exact .inr ⟨_, _, samePoint_append.mpr (.inr ⟨p, q, hbs, rfl, rfl⟩), rfl, rfl⟩

/-- Positions up to the start of the pieces are not moved by the shifts of these pieces. -/
theorem unwind_of_le (h : ShiftRule tr) {ps : List (Piece ℕ)} {e t p : ℕ}
    (hr : Recoverable e t ps) (hp : p ≤ t) : unwind tr (endShifts e ps) p = p := by
  induction ps generalizing e t with
  | nil => rfl
  | cons x ps ih =>
    match x with
    | .keep w => exact ih (t := t + w) hr (by omega)
    | .sub old new false => exact ih hr.2 (by omega)
    | .sub old new true =>
      change tr (e + old, (old : ℤ) - new) (unwind tr (endShifts (e + old) ps) p) = p
      rw [ih hr.2 (by omega)]
      by_cases hne : old = new
      · subst hne
        simpa using h.zero (e + old) p
      · exact h.before (by have := (hr.1 hne).1; omega)

/-- Recoverable pieces are mapped back to where they came from, up to the drift `t - e`
that earlier pieces have left. -/
theorem unwind_of_recoverable (h : ShiftRule tr) {ps : List (Piece ℕ)} {e t : ℕ}
    (hr : Recoverable e t ps) {p q : ℕ} (hpq : SamePoint ps p q) :
    unwind tr (endShifts e ps) (t + p) = t + q := by
  induction ps generalizing e t p q with
  | nil =>
    obtain ⟨rfl, rfl⟩ := samePoint_nil.mp hpq
    rfl
  | cons x ps ih =>
    cases hpq with
    | start => exact unwind_of_le h hr (by omega)
    | @inside w p _ hw =>
      change unwind tr (endShifts (e + w) ps) (t + p) = t + p
      exact unwind_of_le h (t := t + w) hr (Nat.add_le_add_left hw t)
    | skip _ hpq =>
      match x with
      | .keep w => simpa [Piece.target, Piece.source, endShifts, add_assoc] using ih hr hpq
      | .sub old new false =>
        have hi := ih hr.2 hpq
        simp only [Piece.target, Piece.source, endShifts, ← add_assoc]
        rw [hi, hr.1]
      | .sub old new true =>
        have hi := ih hr.2 hpq
        simp only [Piece.target, Piece.source, endShifts, ← add_assoc]
        change tr (e + old, (old : ℤ) - new) (unwind tr (endShifts (e + old) ps) _) = _
        rw [hi]
        by_cases hne : old = new
        · subst hne
          simpa using h.zero (e + old) _
        · have := (hr.1 hne).2
          exact h.after (by omega) (by push_cast; ring)

/-- The converse: shifts that find the way back from every point are recoverable. The pieces
are met at `t`, their points are wanted relative to `b`, not before the original place `e`. -/
theorem recoverable_of_unwind (h : ShiftRule tr) {ps : List (Piece ℕ)} {e t b : ℕ}
    (hd : AtMostDoubled ps) (he : e ≤ b)
    (hu : ∀ p q, SamePoint ps p q → unwind tr (endShifts e ps) (t + p) = b + q) :
    b = t ∧ Recoverable e t ps := by
  induction ps generalizing e t b with
  | nil => exact ⟨by simpa [unwind, endShifts] using (hu 0 0 (.start [])).symm, trivial⟩
  | cons x ps ih =>
    have hd' : AtMostDoubled ps := fun y hy => hd y (List.mem_cons_of_mem _ hy)
    have hx := hd x (List.mem_cons_self ..)
    have hstart : unwind tr (endShifts e (x :: ps)) t = b := by simpa using hu 0 0 (.start _)
    have hskip : ∀ p q, SamePoint ps p q →
        unwind tr (endShifts e (x :: ps)) (t + x.target + p) = b + x.source + q := by
      intro p q hpq
      simpa [add_assoc] using hu _ _ (.skip x hpq)
    match x with
    | .keep w =>
      obtain ⟨hb, hr⟩ := ih hd' (show e + w ≤ b + w by omega) hskip
      exact ⟨Nat.add_right_cancel hb, hr⟩
    | .sub old new false =>
      obtain ⟨hb, hr⟩ := ih hd' (show e + old ≤ b + old by omega) hskip
      have ht : t = b := (unwind_of_le h hr (by omega)).symm.trans hstart
      simp only [Piece.target] at hb
      exact ⟨ht.symm, by omega, hr⟩
    | .sub old new true =>
      simp only [Piece.target, Piece.source] at hx hskip
      by_cases hne : old = new
      · subst hne
        have hzero : ∀ p, unwind tr (endShifts e (.sub old old true :: ps)) p =
            unwind tr (endShifts (e + old) ps) p := by
          intro p
          simpa [endShifts, unwind] using h.zero (e + old) _
        obtain ⟨hb, hr⟩ := ih hd' (show e + old ≤ b + old by omega)
          (fun p q hpq => (hzero _).symm.trans (hskip p q hpq))
        exact ⟨Nat.add_right_cancel hb, fun hn => absurd rfl hn, hr⟩
      · -- a point at or after the end of the old contents must have been moved by this shift
        have happ : ∀ p q, SamePoint ps p q →
            unwind tr (endShifts (e + old) ps) (t + new + p) = b + new + q ∧
              e + old ≤ b + new + q := by
          intro p q hpq
          have hv := hskip p q hpq
          change tr (e + old, (old : ℤ) - new)
            (unwind tr (endShifts (e + old) ps) (t + new + p)) = b + old + q at hv
          generalize unwind tr (endShifts (e + old) ps) (t + new + p) = r at hv ⊢
          by_cases hr : r < e + old
          · rw [h.before hr] at hv
            omega
          · rw [h.after (r := r + old - new) (by omega) (by omega)] at hv
            omega
        have hle := (happ 0 0 (.start ps)).2
        obtain ⟨hb, hr⟩ := ih hd' (show e + old ≤ b + new by omega)
          (fun p q hpq => (happ p q hpq).1)
        have hbt : b = t := Nat.add_right_cancel hb
        refine ⟨hbt, fun _ => ⟨?_, by omega⟩, hr⟩
        -- otherwise this shift would also move the start of its own piece
        by_contra hlt
        change tr (e + old, (old : ℤ) - new) (unwind tr (endShifts (e + old) ps) t) = b at hstart
        rw [unwind_of_le h hr (by omega),
          h.after (r := t + old - new) (by omega) (by omega)] at hstart
        omega

/-- Shifts recorded in coordinates of the original text undo a rewriting at all points that
have a counterpart exactly when the pieces are recoverable. -/
theorem unwind_iff_recoverable (h : ShiftRule tr) {ps : List (Piece ℕ)} (hd : AtMostDoubled ps) :
    (∀ p q, SamePoint ps p q → unwind tr (endShifts 0 ps) p = q) ↔ Recoverable 0 0 ps := by
  constructor
  · intro hu
    exact (recoverable_of_unwind h (t := 0) (b := 0) hd le_rfl
      (fun p q hpq => by simpa using hu p q hpq)).2
  · intro hr p q hpq
    simpa using unwind_of_recoverable h hr hpq

end
end MoveTools.Splice
