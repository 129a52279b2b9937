import Mathlib.Data.List.Infix
import MoveTools.Compiler.LibraAddresses
import MoveTools.Compiler.Templates
import MoveTools.Library.Hex

namespace MoveTools.Compiler.LibraRewriting
open Regex Splice Loop Compiler.Parser LibraAddresses

/-- What the crate's documentation says: a literal is padded with zeros, an address is displayed
with all its digits. -/
def Documented (cr : Crate) : Prop :=
  ∀ ds : Text, 1 ≤ ds.length → ds.length ≤ 32 → (∀ c ∈ ds, isHexDigit c) →
    (cr.fromHexLiteral ("0x".toList ++ ds)).map cr.display =
      some (List.replicate (32 - ds.length) '0' ++ ds)

/-- `0x` and 32 lower-case digits. -/
def IsSender (sender : Text) : Prop :=
  ∃ key : Text, sender = "0x".toList ++ key ∧ key.length = 32 ∧ ∀ c ∈ key, isHexDigit c

/-- No template touches a letter or a digit, and every `0x` starts a run of these. -/
structure Delimited (s : Text) : Prop where
  before_template : ∀ {a t b : Text} {c : Char}, t ∈ templates → s = a ++ c :: (t ++ b) →
    ¬ c.isAlphanum
  after_template : ∀ {a t b : Text} {c : Char}, t ∈ templates → s = a ++ (t ++ c :: b) →
    ¬ c.isAlphanum
  before_literal : ∀ {a b : Text} {c : Char}, s = a ++ c :: '0' :: 'x' :: b → ¬ c.isAlphanum

/-- What may stand for what: a sender for a template, also after it has been padded as an address,
and a padded address for a literal. -/
inductive Substitutes (sender : Text) : Text → Text → Prop
  | template {t : Text} (ht : t ∈ templates) : Substitutes sender t sender
  | templateAddress {t key : Text} (ht : t ∈ templates) (hs : sender = "0x".toList ++ key) :
      Substitutes sender t ("0x00000000".toList ++ key)
  | literal {ds : Text} (hlo : 1 ≤ ds.length) (hhi : ds.length ≤ 32) (hex : ∀ c ∈ ds, isHexDigit c) :
      Substitutes sender ("0x".toList ++ ds)
        ("0x00000000".toList ++ (List.replicate (32 - ds.length) '0' ++ ds))

/-- Whether a loop may still rewrite the piece: a kept character, or a sender not yet padded. -/
def pending : Piece Text → ℕ
  | .keep _ => 1
  | .sub _ new _ => if new.length = 34 then 1 else 0

/-- Each step of either loop makes it smaller. -/
def weight (ps : List (Piece Text)) : ℕ := (ps.map pending).sum

/-- Both loops maintain a row of pieces that explains the text and its offset map. -/
structure Row (sender s : Text) (n : ℕ) (x : Text × FileOffsetMap) (ps : List (Piece Text)) :
    Prop where
  source_eq : sourceText ps = s
  target_eq : targetText ps = x.1
  keep_one : ∀ w, .keep w ∈ ps → ∃ c, w = [c]
  substitutes : ∀ old new logged, .sub old new logged ∈ ps → Substitutes sender old new
  translates : ∀ p q, SamePoint (ps.map (.map Text.len)) p q → x.2.translatePos p = q
  weight_eq : weight ps = n

/-- The invariant of the loops, with the measure `n` that ends them. -/
def Explained (sender s : Text) (n : ℕ) (x : Text × FileOffsetMap) : Prop :=
  ∃ ps, Row sender s n x ps

theorem weight_merge_lt {as ms bs : List (Piece Text)} {y : Piece Text}
    (h : pending y < weight ms) : weight (as ++ y :: bs) < weight (as ++ ms ++ bs) := by
  simp only [weight, List.map_append, List.map_cons, List.sum_append, List.sum_cons] at h ⊢
  omega

theorem weight_kept {ps : List (Piece Text)} (h : ∀ y ∈ ps, ∃ c, y = .keep [c]) :
    weight ps = (targetText ps).length := by
  induction ps with
  | nil => rfl
  | cons y ps ih =>
    obtain ⟨c, rfl⟩ := h _ (List.mem_cons_self ..)
    have := ih fun y hy => h y (List.mem_cons_of_mem _ hy)
    simp only [weight, List.map_cons, List.sum_cons, pending, targetText_cons, Piece.target,
      List.length_append, List.length_singleton] at this ⊢
    omega

theorem sourceText_kept {ps : List (Piece Text)} (h : ∀ y ∈ ps, ∃ c, y = .keep [c]) :
    sourceText ps = targetText ps :=
  (targetText_eq_sourceText fun y hy => (h y hy).imp' (fun c => [c]) fun _ => id).symm

variable {sender s : Text} {n : ℕ} {x : Text × FileOffsetMap} {ps : List (Piece Text)}

/-- One rewriting: the pieces `ms` become one, and a layer is put between its start and its end. -/
theorem Row.merge {as ms bs : List (Piece Text)} (h : Row sender s n x (as ++ ms ++ bs))
    {new : Text} (map : FileOffsetMap) (pos : ℕ) (hnew : Substitutes sender (sourceText ms) new)
    (hlo : Text.len (targetText as) < pos)
    (hhi : pos ≤ Text.len (targetText as) + Text.len new)
    (hmap : ∀ p, map.translatePos p =
      x.2.translatePos (Layer.translate ⟨pos, lenDifference (targetText ms) new⟩ p)) :
    Row sender s (weight (as ++ .sub (sourceText ms) new true :: bs))
      (targetText as ++ new ++ targetText bs, map) (as ++ .sub (sourceText ms) new true :: bs) where
  source_eq := by
    rw [← h.source_eq]
    simp [Piece.source]
  target_eq := by
    simp [Piece.target]
  keep_one w hw := by
    apply h.keep_one w
    simp at hw ⊢
    tauto
  substitutes old r l hm := by
    simp only [List.mem_append, List.mem_cons, Piece.sub.injEq] at hm
    rcases hm with hm | ⟨rfl, rfl, -⟩ | hm
    · exact h.substitutes old r l (by simp [hm])
    · exact hnew
    · exact h.substitutes old r l (by simp [hm])
  translates p q hpq := by
    have hpq' : SamePoint (as.map (.map Text.len) ++
        .sub (sourceLen (ms.map (.map Text.len))) (Text.len new) true :: bs.map (.map Text.len))
          p q := by
      rw [sourceLen_map_len]
      simpa [Piece.map] using hpq
    have := hpq'.unmerge (a := pos) layer_shiftRule (by rwa [targetLen_map_len])
      (by rwa [targetLen_map_len])
    rw [hmap]
    apply h.translates
    rw [targetLen_map_len] at this
    simpa [layerOf, lenDifference] using this
  weight_eq := rfl

theorem Substitutes.new_eq (hs : IsSender sender) {old new : Text}
    (h : Substitutes sender old new) :
    ∃ es : Text, new = '0' :: 'x' :: es ∧ 32 ≤ es.length ∧ ∀ c ∈ es, isHexDigit c := by
  obtain ⟨key, rfl, hlen, hex⟩ := hs
  have hzero : isHexDigit '0' = true := by decide
  cases h with
  | template => exact ⟨key, rfl, hlen.ge, hex⟩
  | templateAddress ht hs =>
    obtain rfl := List.append_cancel_left hs
    refine ⟨"00000000".toList ++ key, rfl, by simp [hlen], fun c hc => ?_⟩
    rcases List.mem_append.mp hc with hc | hc
    · have : c = '0' := by simpa using hc
      rwa [this]
    · exact hex c hc
  | @literal ds hlo hhi hex' =>
    refine ⟨"00000000".toList ++ (List.replicate (32 - ds.length) '0' ++ ds), rfl,
      by simp; omega, fun c hc => ?_⟩
    rcases List.mem_append.mp hc with hc | hc
    · have : c = '0' := by simpa using hc
      rwa [this]
    · rcases List.mem_append.mp hc with hc | hc
      · rwa [(List.mem_replicate.mp hc).2]
      · exact hex' c hc

theorem Substitutes.ne_brace (hs : IsSender sender) {old new : Text}
    (h : Substitutes sender old new) {c : Char} (hc : c ∈ new) : c ≠ '{' ∧ c ≠ '}' := by
  obtain ⟨es, rfl, -, hex⟩ := h.new_eq hs
  constructor
  · rintro rfl
    have : isHexDigit '{' = true := hex _ (by simpa using hc)
    revert this
    decide
  · rintro rfl
    have : isHexDigit '}' = true := hex _ (by simpa using hc)
    revert this
    decide

theorem Substitutes.noOverlap (hs : IsSender sender) {old new t : Text}
    (h : Substitutes sender old new) (ht : t ∈ templates) : NoOverlap t new := by
  obtain ⟨es, heq, -⟩ := h.new_eq hs
  refine noOverlap_of_braceless ht (fun c hc => h.ne_brace hs hc) fun hinside => ?_
  obtain ⟨_, -, ⟨-, hx, -⟩, -⟩ := template_eq ht
  exact hx (hinside.subset (by simp [heq]))

theorem Row.template_isolated (hs : IsSender sender) (h : Row sender s n x ps) {a t b : Text}
    (ht : t ∈ templates) (hx : x.1 = a ++ t ++ b) :
    ∃ as ms bs, ps = as ++ ms ++ bs ∧ targetText as = a ∧ targetText ms = t ∧
      targetText bs = b ∧ ∀ y ∈ ms, ∃ c, y = .keep [c] :=
  isolated h.keep_one (fun _ _ _ hm => (h.substitutes _ _ _ hm).noOverlap hs ht)
    (h.target_eq.trans hx)

theorem row_start (s : Text) :
    Row sender s s.length (s, {}) (s.map fun c => .keep [c]) where
  source_eq := by
    simp [sourceText, List.flatMap_map, Piece.source]
  target_eq := by
    simp [targetText, List.flatMap_map, Piece.target]
  keep_one w hw := by
    obtain ⟨c, -, hc⟩ := List.mem_map.mp hw
    exact ⟨c, by cases hc; rfl⟩
  substitutes old new logged hm := by
    obtain ⟨c, -, hc⟩ := List.mem_map.mp hm
    cases hc
  translates p q hpq := by
    induction s generalizing p q with
    | nil => exact (samePoint_nil.mp hpq).1.trans (samePoint_nil.mp hpq).2.symm
    | cons c s ih =>
      cases hpq with
      | start => rfl
      | inside => rfl
      | skip _ hpq => exact congrArg (_ + ·) (ih _ _ hpq)
  weight_eq := by
    simp [weight, pending, Function.comp_def]

theorem IsSender.length (hs : IsSender sender) : sender.length = 34 := by
  obtain ⟨key, rfl, hlen, -⟩ := hs
  simp [hlen]

theorem nextPlaceholder_explained (hs : IsSender sender) {t : Text} (ht : t ∈ templates)
    (h : Explained sender s n x) :
    nextPlaceholder t sender x = some none ∨ ∃ m x', m < n ∧
      nextPlaceholder t sender x = some (some x') ∧ Explained sender s m x' := by
  obtain ⟨ps, h⟩ := h
  cases hfind : Text.find t x.1 with
  | none => exact .inl (by simp [nextPlaceholder, hfind])
  | some r =>
    obtain ⟨a, b⟩ := r
    obtain ⟨as, ms, bs, rfl, rfl, hms, rfl, hkeep⟩ :=
      h.template_isolated hs ht (Text.find_eq_some hfind)
    have hsource : sourceText ms = t := (sourceText_kept hkeep).trans hms
    have hpos := Text.length_le_len sender
    rw [hs.length] at hpos
    have hrow := h.merge
      (x.2.insertLayer (Text.len (targetText as) + Text.len sender) (lenDifference t sender))
      (Text.len (targetText as) + Text.len sender)
      (by rw [hsource]; exact .template ht) (by omega) le_rfl (fun p => by simp [hms])
    refine .inr ⟨_, _, ?_, by simp [nextPlaceholder, hfind], _, hrow⟩
    -- at least ten kept characters have become one sender
    obtain ⟨-, -, -, hlen⟩ := template_eq ht
    rw [← h.weight_eq]
    apply weight_merge_lt
    rw [weight_kept hkeep, hms, pending, if_pos hs.length]
    omega

theorem replaceSenderPlaceholder_explained (hs : IsSender sender) (h : Explained sender s n x) :
    ∃ m x', m ≤ n ∧ Explained sender s m x' ∧
      ∀ fuel, n < fuel → replaceSenderPlaceholder fuel x.1 sender x.2 = some x' := by
  have hlen := Text.length_le_len sender
  rw [hs.length] at hlen
  obtain ⟨m, x1, hm, h1, -, hrun⟩ := whileLet_ends (I := Explained sender s)
    (nextPlaceholder_explained hs (t := "{{sender}}".toList) (by simp [templates])) h
  obtain ⟨k, x2, hk, h2, -, hrun'⟩ := whileLet_ends (I := Explained sender s)
    (nextPlaceholder_explained hs (t := "{{ sender }}".toList) (by simp [templates])) h1
  refine ⟨k, x2, hk.trans hm, h2, fun fuel hf => ?_⟩
  rw [replaceSenderPlaceholder, if_pos (by omega)]
  simp only [templates, List.foldlM_cons, List.foldlM_nil, Prod.mk.eta, hrun fuel hf,
    Option.bind_eq_bind, Option.bind_some, hrun' fuel (by omega)]
  rfl

theorem isAlphanum_of_isHexDigit {c : Char} (h : isHexDigit c) : c.isAlphanum :=
  Hex.isAlphanum_of_isHex (Hex.isHex_of_isLower h)

theorem Delimited.not_after_alphanum (hd : Delimited s) {old new a b : Text} {c : Char}
    (h : Substitutes sender old new) (hsource : s = a ++ c :: (old ++ b)) : ¬ c.isAlphanum := by
  cases h with
  | template ht => exact hd.before_template ht hsource
  | templateAddress ht => exact hd.before_template ht hsource
  | literal => exact hd.before_literal hsource

theorem Delimited.not_before_x (hd : Delimited s) {old new a b : Text}
    (h : Substitutes sender old new) (hsource : s = a ++ (old ++ 'x' :: b)) :
    ¬ ∃ u, new = u ++ ['0'] := by
  rintro ⟨u, hu⟩
  cases h with
  | template ht => exact hd.after_template ht hsource (by decide)
  | templateAddress ht => exact hd.after_template ht hsource (by decide)
  | @literal ds hlo _ hex =>
    obtain ⟨es, d, rfl⟩ := List.eq_nil_or_concat ds |>.resolve_left (by rintro rfl; simp at hlo)
    rw [List.concat_eq_append] at hu hsource hex
    rw [← List.append_assoc, ← List.append_assoc] at hu
    obtain ⟨-, hd0⟩ := List.append_inj' hu rfl
    obtain rfl := (List.cons.inj hd0).1
    cases List.eq_nil_or_concat es with
    | inl hnil =>
      subst hnil
      exact hd.before_literal (a := a ++ ['0']) (b := b) (c := 'x') (by simp [hsource]) (by decide)
    | inr hcons =>
      obtain ⟨fs, e, rfl⟩ := hcons
      refine hd.before_literal (a := a ++ '0' :: 'x' :: fs) (b := b) (c := e) (by simp [hsource]) ?_
      exact isAlphanum_of_isHexDigit (hex e (by simp))

theorem kept_run (hd : Delimited s) {ps : List (Piece Text)}
    (hone : ∀ w, .keep w ∈ ps → ∃ c, w = [c])
    (hsub : ∀ old new logged, .sub old new logged ∈ ps → Substitutes sender old new)
    {a : Text} {e : Char} (he : e.isAlphanum) (hsource : s = a ++ e :: sourceText ps)
    {ds r : Text} (hds : ∀ c ∈ ds, c.isAlphanum) (ht : targetText ps = ds ++ r) :
    ∃ ms bs, ps = ms ++ bs ∧ targetText ms = ds ∧ targetText bs = r ∧
      ∀ y ∈ ms, ∃ c, y = .keep [c] := by
  induction ds generalizing ps a e with
  | nil => exact ⟨[], ps, rfl, rfl, ht, by simp⟩
  | cons d ds ih =>
    match ps with
    | [] => simp at ht
    | .sub old new l :: ps =>
      refine absurd he (hd.not_after_alphanum (hsub old new l (by simp)) (a := a)
        (b := sourceText ps) ?_)
      simpa [Piece.source] using hsource
    | .keep w :: ps =>
      obtain ⟨c, rfl⟩ := hone w (by simp)
      simp only [targetText_cons, Piece.target, List.cons_append, List.nil_append,
        List.cons.injEq] at ht
      obtain ⟨rfl, ht⟩ := ht
      obtain ⟨ms, bs, rfl, hms, hbs, hkept⟩ := ih
        (fun w hw => hone w (List.mem_cons_of_mem _ hw))
        (fun old new l hm => hsub old new l (List.mem_cons_of_mem _ hm))
        (hds c (by simp)) (a := a ++ [e])
        (by simpa [Piece.source] using hsource) (fun c hc => hds c (List.mem_cons_of_mem _ hc)) ht
      refine ⟨.keep [c] :: ms, bs, rfl, by simp [Piece.target, hms], hbs, fun y hy => ?_⟩
      rcases List.mem_cons.mp hy with rfl | hy
      · exact ⟨c, rfl⟩
      · exact hkept y hy

theorem digits_eq {es ds b r : Text} {c : Char} (hes : ∀ d ∈ es, isHexDigit d)
    (hlen : ds.length ≤ es.length) (hc : ¬ isHexDigit c) (h : es ++ r = ds ++ c :: b) :
    es = ds ∧ r = c :: b := by
  rcases List.append_eq_append_iff.mp h with ⟨w, rfl, hw⟩ | ⟨w, rfl, hw⟩
  · rw [List.length_append] at hlen
    obtain rfl := List.eq_nil_of_length_eq_zero (show w.length = 0 by omega)
    exact ⟨by simp, by simpa using hw⟩
  · cases w with
    | nil => exact ⟨by simp, by simpa using hw.symm⟩
    | cons d w =>
      simp only [List.cons_append, List.cons.injEq] at hw
      exact absurd (hes d (by simp)) (by rwa [← hw.1])

/-- A literal that starts properly inside a substituted text starts at its last digit. -/
theorem zero_last (hs : IsSender sender) {old new u v r w : Text} (h : Substitutes sender old new)
    (hnew : new = u ++ v) (hu : u ≠ []) (hv : v ≠ []) (hw : '0' :: 'x' :: w = v ++ r) :
    v = ['0'] ∧ r = 'x' :: w := by
  obtain ⟨es, rfl, -, hex⟩ := h.new_eq hs
  have hx : isHexDigit 'x' = false := by decide
  match u, v with
  | _, ['0'] => simp_all
  | _ :: u, c :: d :: v =>
    simp only [List.cons_append, List.cons.injEq] at hw hnew
    obtain ⟨rfl, rfl, -⟩ := hw
    match u with
    | [] => simp at hnew
    | _ :: u =>
      have := hex 'x' (by rw [(List.cons.inj hnew.2).2]; simp)
      simp [hx] at this

/-- No literal starts properly inside a substituted text. -/
theorem Row.not_inside (hs : IsSender sender) (hd : Delimited s) {as rs : List (Piece Text)}
    {y : Piece Text} (h : Row sender s n x (as ++ y :: rs)) {u v w : Text}
    (hy : y.target = u ++ v) (hu : u ≠ []) (hv : v ≠ [])
    (hw : '0' :: 'x' :: w = v ++ targetText rs) : False := by
  cases y with
  | keep r =>
    obtain ⟨c, rfl⟩ := h.keep_one r (by simp)
    rcases List.append_eq_singleton_iff.mp hy.symm with ⟨hnil, -⟩ | ⟨-, hnil⟩
    · exact hu hnil
    · exact hv hnil
  | sub old new l =>
    have hsub := h.substitutes old new l (by simp)
    obtain ⟨rfl, hafter⟩ := zero_last hs hsub hy hu hv hw
    -- so an `x` was kept behind the last digit
    cases rs with
    | nil => simp at hafter
    | cons z rs =>
      cases z with
      | sub old' new' l' =>
        obtain ⟨es, rfl, -, -⟩ := (h.substitutes old' new' l' (by simp)).new_eq hs
        simp [Piece.target] at hafter
      | keep r =>
        obtain ⟨d, rfl⟩ := h.keep_one r (by simp)
        simp only [targetText_cons, Piece.target, List.cons_append, List.nil_append,
          List.cons.injEq] at hafter
        obtain ⟨rfl, -⟩ := hafter
        refine hd.not_before_x hsub (a := sourceText as) (b := sourceText rs) ?_ ⟨u, hy⟩
        rw [← h.source_eq]
        simp [Piece.source]

/-- Only a sender is short enough to be taken for a literal once it is substituted. -/
theorem Substitutes.template_of_short (hs : IsSender sender) {old new : Text}
    (h : Substitutes sender old new) (hshort : new.length ≤ 34) : old ∈ templates ∧ new = sender := by
  have hlen := hs.length
  cases h with
  | template ht => exact ⟨ht, rfl⟩
  | templateAddress ht hkey =>
    rw [hkey] at hlen
    simp at hlen hshort
    omega
  | literal hlo hhi =>
    simp at hshort
    omega

/-- What the second loop rewrites is made of kept pieces, or is a substituted sender. -/
theorem Row.literal_isolated (hs : IsSender sender) (hd : Delimited s) (h : Row sender s n x ps)
    {a ds b : Text} {c : Char} (hds : ∀ d ∈ ds, isHexDigit d) (hlen : ds.length ≤ 32)
    (hc : ¬ isHexDigit c) (hx : x.1 = a ++ '0' :: 'x' :: (ds ++ c :: b)) :
    ∃ as ms bs, ps = as ++ ms ++ bs ∧ targetText as = a ∧ targetText ms = '0' :: 'x' :: ds ∧
      targetText bs = c :: b ∧ ((∀ y ∈ ms, ∃ c, y = .keep [c]) ∨
        ∃ t ∈ templates, ∃ l, ms = [.sub t sender l]) := by
  rcases targetText_eq_append (h.target_eq.trans hx) with ⟨as, rs, rfl, ha, hrs⟩ |
    ⟨as, y, rs, u, v, rfl, hy, hu, hv, -, hrs⟩
  swap
  -- a literal does not start inside a substituted text
  · exact (h.not_inside hs hd hy hu hv hrs).elim
  cases rs with
  | nil => simp at hrs
  | cons y rs =>
    cases y with
    | keep w =>
      obtain ⟨_, rfl⟩ := h.keep_one w (by simp)
      simp only [targetText_cons, Piece.target, List.cons_append, List.nil_append,
        List.cons.injEq] at hrs
      obtain ⟨rfl, hrs⟩ := hrs
      -- it starts with a kept `0`, and no piece is substituted within its digits
      have hrun : ∀ c ∈ 'x' :: ds, c.isAlphanum := by
        intro c hc
        rcases List.mem_cons.mp hc with rfl | hc
        · decide
        · exact isAlphanum_of_isHexDigit (hds c hc)
      obtain ⟨ms, bs, rfl, hms, hbs, hkept⟩ := kept_run hd (a := sourceText as) (e := '0')
        (fun w hw => h.keep_one w (by simp [hw]))
        (fun old new l hm => h.substitutes old new l (by simp [hm])) (by decide)
        (by rw [← h.source_eq]; simp [Piece.source]) hrun hrs
      refine ⟨as, .keep ['0'] :: ms, bs, by simp, ha, by simp [Piece.target, hms], hbs,
        .inl fun y hy => ?_⟩
      rcases List.mem_cons.mp hy with rfl | hy
      · exact ⟨'0', rfl⟩
      · exact hkept y hy
    | sub old new l =>
      have hsub := h.substitutes old new l (by simp)
      obtain ⟨es, hnew, hes, hex⟩ := hsub.new_eq hs
      rw [targetText_cons, Piece.target, hnew] at hrs
      simp only [List.cons_append, List.cons.injEq, true_and] at hrs
      -- it starts with a substituted text, and takes all of it
      obtain ⟨rfl, hbs⟩ := digits_eq hex (hlen.trans hes) hc hrs
      obtain ⟨ht, rfl⟩ := hsub.template_of_short hs (by
        rw [hnew, List.length_cons, List.length_cons]
        omega)
      exact ⟨as, [.sub old new l], rs, by simp, ha, by simp [Piece.target, hnew], hbs,
        .inr ⟨old, ht, l, rfl⟩⟩

theorem search_literal {t : Text} {m : Match} (h : search LIBRA_16_BYTES_REGEX t = some m) :
    ∃ ds c, m.items = [['0'], ['x'], ds, [c]] ∧ 1 ≤ ds.length ∧ ds.length ≤ 32 ∧
      (∀ d ∈ ds, isHexDigit d) ∧ ¬ isHexDigit c ∧
      t = m.before ++ '0' :: 'x' :: (ds ++ c :: m.after) := by
  have hitems := matchAt_items (search_matchAt h)
  have happ := search_append h
  rcases m with ⟨before, items, after⟩
  simp only [LIBRA_16_BYTES_REGEX, List.forall₂_cons_left_iff, List.forall₂_nil_left_iff] at hitems
  obtain ⟨z, _, ⟨hz, hz1, hz2⟩, ⟨x, _, ⟨hx, hx1, hx2⟩, ⟨ds, _, ⟨hds, hds1, hds2⟩,
    ⟨e, _, ⟨he, he1, he2⟩, rfl, rfl⟩, rfl⟩, rfl⟩, rfl⟩ := hitems
  simp only [Item.lit, Item.one] at hz hz1 hz2 hx hx1 hx2 hds1 hds2 he he1 he2
  obtain ⟨z, rfl⟩ := List.length_eq_one_iff.mp (le_antisymm (hz2 1 rfl) hz1)
  obtain ⟨x, rfl⟩ := List.length_eq_one_iff.mp (le_antisymm (hx2 1 rfl) hx1)
  obtain ⟨e, rfl⟩ := List.length_eq_one_iff.mp (le_antisymm (he2 1 rfl) he1)
  obtain rfl : z = '0' := by simpa using hz
  obtain rfl : x = 'x' := by simpa using hx
  exact ⟨ds, e, rfl, hds1, hds2 32 rfl, hds, by simpa using he, by simpa using happ⟩

theorem substitutes_padded (hs : IsSender sender) {ms : List (Piece Text)} {ds : Text}
    (hlo : 1 ≤ ds.length) (hhi : ds.length ≤ 32) (hex : ∀ d ∈ ds, isHexDigit d)
    (hms : targetText ms = '0' :: 'x' :: ds)
    (hkind : (∀ y ∈ ms, ∃ c, y = .keep [c]) ∨ ∃ t ∈ templates, ∃ l, ms = [.sub t sender l]) :
    Substitutes sender (sourceText ms)
      ("0x00000000".toList ++ (List.replicate (32 - ds.length) '0' ++ ds)) ∧ 1 ≤ weight ms := by
  rcases hkind with hkept | ⟨t, ht, l, rfl⟩
  · rw [sourceText_kept hkept, hms, weight_kept hkept, hms]
    exact ⟨.literal hlo hhi hex, by simp⟩
  · have hsender : sender = '0' :: 'x' :: ds := by simpa [Piece.target] using hms
    have hlen := hs.length
    rw [hsender] at hlen
    obtain hds : ds.length = 32 := by simpa using hlen
    refine ⟨?_, by simp [weight, pending, hs.length]⟩
    simpa [Piece.source, hds] using Substitutes.templateAddress ht hsender

theorem nextAddress_explained {cr : Crate} (hcr : Documented cr) (hs : IsSender sender)
    (hd : Delimited s) (h : Explained sender s n x) :
    nextAddress cr x = some none ∨ ∃ m x', m < n ∧ nextAddress cr x = some (some x') ∧
      Explained sender s m x' := by
  obtain ⟨ps, h⟩ := h
  cases hsearch : search LIBRA_16_BYTES_REGEX x.1 with
  | none => exact .inl (by simp [nextAddress, hsearch])
  | some m =>
    obtain ⟨ds, c, hitems, hlo, hhi, hex, hc, hx⟩ := search_literal hsearch
    -- the literal was kept from the source, or is a sender that stands for a template
    obtain ⟨as, ms, bs, rfl, hbefore, hms, hafter, hkind⟩ := h.literal_isolated hs hd hex hhi hc hx
    obtain ⟨hsub, hweight⟩ := substitutes_padded hs hlo hhi hex hms hkind
    obtain ⟨address, haddress, hdisplay⟩ := Option.map_eq_some_iff.mp (hcr ds hlo hhi hex)
    have hlit : Text.len ('0' :: 'x' :: ds) = 2 + Text.len ds := by
      simp only [Text.len_cons, show '0'.utf8Size = 1 from rfl, show 'x'.utf8Size = 1 from rfl]
      omega
    have hten : Text.len "0x00000000".toList = 10 := rfl
    generalize hnew : "0x00000000".toList ++ (List.replicate (32 - ds.length) '0' ++ ds) = new
      at hsub
    have hlen : Text.len ('0' :: 'x' :: ds) ≤ Text.len new := by
      rw [← hnew, hlit, Text.len_append, Text.len_append, hten]
      omega
    have hrow := h.merge
      (x.2.insertAddressLayer (Text.len m.before + Text.len ('0' :: 'x' :: ds))
        ('0' :: 'x' :: ds) new)
      (Text.len (targetText as) + Text.len ('0' :: 'x' :: ds)) hsub (by omega)
      (by omega) (fun p => by simp [hms, hbefore])
    have hnext : nextAddress cr x = some (some (targetText as ++ new ++ targetText bs,
        x.2.insertAddressLayer (Text.len m.before + Text.len ('0' :: 'x' :: ds))
          ('0' :: 'x' :: ds) new)) := by
      have haddress' : cr.fromHexLiteral ('0' :: 'x' :: ds) = some address := haddress
      simp only [nextAddress, hsearch, Match.capture, hitems, Match.replaceCapture]
      simp [haddress', hdisplay, ← hnew, hbefore, hafter]
    refine .inr ⟨_, _, ?_, hnext, _, hrow⟩
    -- the padded literal is too long to be found once more
    rw [← h.weight_eq]
    apply weight_merge_lt
    have hlong : new.length = 42 := by
      rw [← hnew]
      simp
      omega
    rw [pending, if_neg (by omega)]
    omega

theorem replaceLibraAddress_explained {cr : Crate} (hcr : Documented cr) (hs : IsSender sender)
    (hd : Delimited s) (h : Explained sender s n x) :
    ∃ m x', Explained sender s m x' ∧
      ∀ fuel, n < fuel → replaceLibraAddress cr fuel x.1 x.2 = some x' := by
  obtain ⟨m, x', -, h', -, hrun⟩ := whileLet_ends (I := Explained sender s)
    (nextAddress_explained hcr hs hd) h
  exact ⟨m, x', h', hrun⟩

/-- Text `t` is `s` with templates and literals substituted, and every point outside the
substituted texts is led back to the same point of `s`. -/
def KeepsPositions (sender s t : Text) (map : FileOffsetMap) : Prop :=
  ∃ ps, sourceText ps = s ∧ targetText ps = t ∧
    (∀ old new logged, .sub old new logged ∈ ps → Substitutes sender old new) ∧
    ∀ p q, SamePoint (ps.map (.map Text.len)) p q → map.translatePos p = q

theorem Explained.keepsPositions (h : Explained sender s n x) : KeepsPositions sender s x.1 x.2 := by
  obtain ⟨ps, h⟩ := h
  exact ⟨ps, h.source_eq, h.target_eq, h.substitutes, h.translates⟩

theorem normalizeSourceText_keepsPositions {cr : Crate} (hcr : Documented cr)
    {sender : ProvidedAccountAddress} (hs : IsSender sender.normalizedOriginal) {s : Text}
    (hcr' : '\r' ∉ s) (hd : Delimited s) :
    ∃ t map, (∃ n, ∀ fuel, n < fuel →
        normalizeSourceText fuel (libraDialect cr fuel) s (some sender) = some (t, map)) ∧
      KeepsPositions sender.normalizedOriginal s t map := by
  have hstart : Explained sender.normalizedOriginal s s.length (s, {}) := ⟨_, row_start s⟩
  obtain ⟨m, x1, hm, h1, hrun1⟩ := replaceSenderPlaceholder_explained hs hstart
  obtain ⟨k, x2, h2, hrun2⟩ := replaceLibraAddress_explained hcr hs hd h1
  refine ⟨x2.1, x2.2, ⟨s.length, fun fuel hf => ?_⟩, h2.keepsPositions⟩
  have h1 := hrun1 fuel hf
  have h2 := hrun2 fuel (by omega)
  simp only [normalizeSourceText, LineEndings.normalize_of_not_mem hcr', h1, libraDialect,
    Option.bind_eq_bind, Option.bind_some, h2]

theorem normalizeAccountAddress_isSender {cr : Crate} (hcr : Documented cr) {ds : Text} {fuel : ℕ}
    {sender : ProvidedAccountAddress} (hlo : 1 ≤ ds.length) (hhi : ds.length ≤ 32)
    (hex : ∀ d ∈ ds, isHexDigit d)
    (h : (libraDialect cr fuel).normalizeAccountAddress ("0x".toList ++ ds) = some sender) :
    IsSender sender.normalizedOriginal := by
  obtain ⟨address, haddress, hdisplay⟩ := Option.map_eq_some_iff.mp (hcr ds hlo hhi hex)
  simp only [libraDialect, haddress] at h
  cases h
  refine ⟨_, rfl, ?_, fun c hc => ?_⟩
  · simp [hdisplay]
    omega
  · rw [hdisplay] at hc
    rcases List.mem_append.mp hc with hc | hc
    · rw [(List.mem_replicate.mp hc).2]
      decide
    · exact hex c hc

def startsWell : Text → Bool
  | [] => true
  | c :: w => !c.isAlphanum || !("0x".toList :: templates).any (·.isPrefixOf w)

def endsWell (w : Text) : Bool :=
  templates.all fun t => !t.isPrefixOf w || (w.drop t.length).head?.all (!·.isAlphanum)

theorem delimited_of_tails (h : ∀ w ∈ s.tails, startsWell w && endsWell w) : Delimited s := by
  have hend : ∀ {a w : Text}, s = a ++ w → startsWell w ∧ endsWell w := by
    rintro a w rfl
    simpa using h w ((List.mem_tails _ _).mpr (List.suffix_append a w))
  have hstart : ∀ {a t b : Text} {c : Char}, t ∈ "0x".toList :: templates →
      s = a ++ c :: (t ++ b) → ¬ c.isAlphanum := by
    intro a t b c ht hs hc
    have := (hend hs).1
    simp only [startsWell, hc, Bool.not_true, Bool.false_or, Bool.not_eq_true',
      List.any_eq_false] at this
    exact this t ht (List.isPrefixOf_iff_prefix.mpr (List.prefix_append t b))
  refine ⟨fun ht hs => hstart (List.mem_cons_of_mem _ ht) hs, fun {a t b c} ht hs hc => ?_,
    fun hs => hstart (t := "0x".toList) (List.mem_cons_self ..) hs⟩
  have := List.all_eq_true.mp (hend hs).2 t ht
  rw [List.isPrefixOf_iff_prefix.mpr (List.prefix_append t (c :: b)), List.drop_left] at this
  simp [hc] at this

/-- The crate, with addresses as their digits. -/
def digitsCrate : Crate where
  Address := Text
  fromHexLiteral
    | '0' :: 'x' :: ds =>
      if 1 ≤ ds.length ∧ ds.length ≤ 32 ∧ ds.all isHexDigit then
        some (List.replicate (32 - ds.length) '0' ++ ds)
      else none
    | _ => none
  display := id

theorem digitsCrate_documented : Documented digitsCrate := by
  intro ds hlo hhi hex
  have : digitsCrate.fromHexLiteral ("0x".toList ++ ds) =
      some (List.replicate (32 - ds.length) '0' ++ ds) :=
    if_pos ⟨hlo, hhi, List.all_eq_true.mpr hex⟩
  rw [this]
  rfl

def sixteenBytes : ProvidedAccountAddress where
  original := "0x11".toList
  normalizedOriginal := "0x00000000000000000000000000000011".toList
  lowered := "0x0000000000000000000000000000000000000011".toList

theorem keepsPositions_sixteenBytes :
    ∃ t map, (∃ n, ∀ fuel, n < fuel → normalizeSourceText fuel (libraDialect digitsCrate fuel)
        "{{sender}}{{ sender }} 0x1;".toList (some sixteenBytes) = some (t, map)) ∧
      KeepsPositions sixteenBytes.normalizedOriginal "{{sender}}{{ sender }} 0x1;".toList t map := by
  have hex : ∀ d ∈ "11".toList, isHexDigit d := by decide
  have hsender : (libraDialect digitsCrate 0).normalizeAccountAddress ("0x".toList ++ "11".toList) =
      some sixteenBytes := by
    rfl
  exact normalizeSourceText_keepsPositions digitsCrate_documented
    (normalizeAccountAddress_isSender digitsCrate_documented (by decide) (by decide) hex hsender)
    (by decide) (delimited_of_tails (List.all_eq_true.mp (by decide)))

end MoveTools.Compiler.LibraRewriting
