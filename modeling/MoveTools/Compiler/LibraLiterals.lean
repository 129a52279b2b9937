import MoveTools.Compiler.LibraRewriting
import MoveTools.Library.Hex

namespace MoveTools.Compiler.LibraLiterals
open Regex Loop LibraAddresses LibraRewriting

/-! Address literals before and after `replace_libra_address`. -/

/-- The digits after an `0x`, up to `after`. -/
structure IsLiteral (ds after : Text) : Prop where
  nonempty : ds ≠ []
  digits : ∀ d ∈ ds, Hex.isHex d
  maximal : ∀ c t, after = c :: t → ¬Hex.isHex c

/-- No literal starts here. -/
def NoLiteral (s : Text) : Prop := ∀ ds after, IsLiteral ds after → s ≠ '0' :: 'x' :: (ds ++ after)

/-- Each literal of at most 32 digits, found from left to right, becomes one of the same value with
40 digits. All other text stays. -/
inductive Rewrites : Text → Text → Prop
  | nil : Rewrites [] []
  | other {c : Char} {s t : Text} (h : NoLiteral (c :: s)) (hs : Rewrites s t) :
      Rewrites (c :: s) (c :: t)
  | long {ds after t : Text} (h : IsLiteral ds after) (hlen : 32 < ds.length)
      (hs : Rewrites after t) : Rewrites ('0' :: 'x' :: (ds ++ after)) ('0' :: 'x' :: (ds ++ t))
  | address {ds ds' after t : Text} (h : IsLiteral ds after) (hlen : ds.length ≤ 32)
      (hlen' : ds'.length = 40) (hex : ∀ d ∈ ds', Hex.isHex d) (hvalue : Hex.value ds' = Hex.value ds)
      (hs : Rewrites after t) : Rewrites ('0' :: 'x' :: (ds ++ after)) ('0' :: 'x' :: (ds' ++ t))

/-- One of the literals, found from left to right, has the digits `ds` and stands before `after`. -/
inductive LiteralAt : Text → Text → Text → Prop
  | here {ds after : Text} (h : IsLiteral ds after) :
      LiteralAt ('0' :: 'x' :: (ds ++ after)) ds after
  | other {c : Char} {s ds after : Text} (h : NoLiteral (c :: s)) (hs : LiteralAt s ds after) :
      LiteralAt (c :: s) ds after
  | behind {es s ds after : Text} (h : IsLiteral es s) (hs : LiteralAt s ds after) :
      LiteralAt ('0' :: 'x' :: (es ++ s)) ds after

/-- The regular expression matches at the start: 1 to 32 lower-case digits, and a character behind
them that is none. -/
def Caught (s : Text) : Prop :=
  ∃ ds c t, s = '0' :: 'x' :: (ds ++ c :: t) ∧ 1 ≤ ds.length ∧ ds.length ≤ 32 ∧
    (∀ d ∈ ds, isHexDigit d) ∧ ¬isHexDigit c

/-- A literal that is dealt with as it should be. -/
structure Understood (ds after : Text) : Prop where
  /-- An address is in lower case, and not the end of the text. -/
  address : ds.length ≤ 32 → (∀ d ∈ ds, isHexDigit d) ∧ after ≠ []
  /-- No digit of a longer number is taken for the end of an address. -/
  long : 32 < ds.length → ¬Caught ('0' :: 'x' :: (ds ++ after))
  /-- Its last digit is not taken for the start of an address. -/
  apart : ds.getLast? = some '0' → ¬Caught ('0' :: after)

theorem isHex_x : ¬Hex.isHex 'x' := by decide

theorem isHexDigit_x : ¬isHexDigit 'x' := by decide

theorem isHex_of_isHexDigit {c : Char} (h : isHexDigit c) : Hex.isHex c := Hex.isHex_of_isLower h

theorem takeWhile_eq {ds after : Text} (h : IsLiteral ds after) :
    (ds ++ after).takeWhile Hex.isHex = ds := by
  rw [List.takeWhile_append_of_pos h.digits]
  cases after with
  | nil => simp
  | cons c t => simp [h.maximal c t rfl]

theorem IsLiteral.unique {ds es s t : Text} (h : IsLiteral ds s) (h' : IsLiteral es t)
    (heq : ds ++ s = es ++ t) : ds = es ∧ s = t := by
  have hds : ds = es := by rw [← takeWhile_eq h, ← takeWhile_eq h', heq]
  subst hds
  exact ⟨rfl, List.append_cancel_left heq⟩

theorem scan_cases (s : Text) :
    s = [] ∨ (∃ ds after, IsLiteral ds after ∧ s = '0' :: 'x' :: (ds ++ after)) ∨
      ∃ c t, NoLiteral (c :: t) ∧ s = c :: t := by
  cases s with
  | nil => exact Or.inl rfl
  | cons c t =>
    right
    by_cases h : NoLiteral (c :: t)
    · exact Or.inr ⟨c, t, h, rfl⟩
    · simp only [NoLiteral, not_forall, not_not] at h
      obtain ⟨ds, after, hlit, heq⟩ := h
      exact Or.inl ⟨ds, after, hlit, heq⟩

theorem literalAt_other {c : Char} {s : Text} (h : NoLiteral (c :: s)) {ds after : Text} :
    LiteralAt (c :: s) ds after ↔ LiteralAt s ds after := by
  constructor
  · intro hat
    generalize hs : c :: s = u at hat
    cases hat with
    | here hlit => exact absurd hs (h _ _ hlit)
    | other _ hrest =>
      obtain ⟨rfl, rfl⟩ := List.cons.inj hs
      exact hrest
    | behind hlit _ => exact absurd hs (h _ _ hlit)
  · exact LiteralAt.other h

theorem literalAt_literal {es s : Text} (h : IsLiteral es s) {ds after : Text} :
    LiteralAt ('0' :: 'x' :: (es ++ s)) ds after ↔
      (ds = es ∧ after = s) ∨ LiteralAt s ds after := by
  constructor
  · intro hat
    generalize hu : '0' :: 'x' :: (es ++ s) = u at hat
    cases hat with
    | here hlit =>
      simp only [List.cons.injEq, true_and] at hu
      obtain ⟨rfl, rfl⟩ := h.unique hlit hu
      exact Or.inl ⟨rfl, rfl⟩
    | other hno _ => exact absurd hu.symm (hno _ _ h)
    | behind hlit hrest =>
      simp only [List.cons.injEq, true_and] at hu
      obtain ⟨rfl, rfl⟩ := h.unique hlit hu
      exact Or.inr hrest
  · intro hat
    rcases hat with ⟨rfl, rfl⟩ | hat
    · exact .here h
    · exact .behind h hat

theorem rewrites_other {c : Char} {s u : Text} (h : NoLiteral (c :: s)) :
    Rewrites (c :: s) u ↔ ∃ t, u = c :: t ∧ Rewrites s t := by
  constructor
  · intro hu
    generalize hs : c :: s = v at hu
    cases hu with
    | nil => cases hs
    | other _ hrest =>
      obtain ⟨rfl, rfl⟩ := List.cons.inj hs
      exact ⟨_, rfl, hrest⟩
    | long hlit _ _ => exact absurd hs (h _ _ hlit)
    | address hlit _ _ _ _ _ => exact absurd hs (h _ _ hlit)
  · intro hu
    obtain ⟨t, rfl, ht⟩ := hu
    exact .other h ht

theorem rewrites_long {ds after u : Text} (h : IsLiteral ds after) (hlen : 32 < ds.length) :
    Rewrites ('0' :: 'x' :: (ds ++ after)) u ↔
      ∃ t, u = '0' :: 'x' :: (ds ++ t) ∧ Rewrites after t := by
  constructor
  · intro hu
    generalize hs : '0' :: 'x' :: (ds ++ after) = v at hu
    cases hu with
    | nil => cases hs
    | other hno _ => exact absurd hs.symm (hno _ _ h)
    | long hlit _ hrest =>
      simp only [List.cons.injEq, true_and] at hs
      obtain ⟨rfl, rfl⟩ := h.unique hlit hs
      exact ⟨_, rfl, hrest⟩
    | address hlit hshort _ _ _ _ =>
      simp only [List.cons.injEq, true_and] at hs
      obtain ⟨rfl, rfl⟩ := h.unique hlit hs
      omega
  · intro hu
    obtain ⟨t, rfl, ht⟩ := hu
    exact .long h hlen ht

theorem rewrites_address {ds after u : Text} (h : IsLiteral ds after) (hlen : ds.length ≤ 32)
    (hu : Rewrites ('0' :: 'x' :: (ds ++ after)) u) :
    ∃ ds' t, u = '0' :: 'x' :: (ds' ++ t) ∧ ds'.length = 40 ∧ (∀ d ∈ ds', Hex.isHex d) ∧
      Hex.value ds' = Hex.value ds ∧ Rewrites after t := by
  generalize hs : '0' :: 'x' :: (ds ++ after) = v at hu
  cases hu with
  | nil => cases hs
  | other hno _ => exact absurd hs.symm (hno _ _ h)
  | long hlit hlong _ =>
    simp only [List.cons.injEq, true_and] at hs
    obtain ⟨rfl, rfl⟩ := h.unique hlit hs
    omega
  | address hlit _ hlen' hex hvalue hrest =>
    simp only [List.cons.injEq, true_and] at hs
    obtain ⟨rfl, rfl⟩ := h.unique hlit hs
    exact ⟨_, _, rfl, hlen', hex, hvalue, hrest⟩

theorem Rewrites.keeps_digits {s t es r : Text} {c : Char} (h : Rewrites s t)
    (hs : s = es ++ c :: r) (hes : ∀ d ∈ es, Hex.isHex d) : ∃ r', t = es ++ c :: r' := by
  induction es generalizing s t with
  | nil =>
    subst hs
    cases h with
    | other _ _ => exact ⟨_, rfl⟩
    | long _ _ _ => exact ⟨_, rfl⟩
    | address _ _ _ _ _ _ => exact ⟨_, rfl⟩
  | cons d es ih =>
    -- only the last digit can start a literal, and then `c` is its `x`
    have hlast : ∀ v, '0' :: 'x' :: v = d :: (es ++ c :: r) → es = [] ∧ d = '0' ∧ c = 'x' := by
      intro v hv
      obtain ⟨hd, hrest⟩ := List.cons.inj hv
      cases es with
      | nil => exact ⟨rfl, hd.symm, (List.cons.inj hrest).1.symm⟩
      | cons e es =>
        obtain rfl : 'x' = e := (List.cons.inj hrest).1
        exact absurd (hes 'x' (by simp)) isHex_x
    cases h with
    | nil => cases hs
    | other _ hrest =>
      obtain ⟨rfl, htail⟩ := List.cons.inj hs
      obtain ⟨r', rfl⟩ := ih hrest htail fun e he => hes e (List.mem_cons_of_mem _ he)
      exact ⟨r', rfl⟩
    | long _ _ _ =>
      obtain ⟨rfl, rfl, rfl⟩ := hlast _ hs
      exact ⟨_, rfl⟩
    | address _ _ _ _ _ _ =>
      obtain ⟨rfl, rfl, rfl⟩ := hlast _ hs
      exact ⟨_, rfl⟩

theorem matchAt_literal {ds t : Text} {c : Char} (hlo : 1 ≤ ds.length) (hhi : ds.length ≤ 32)
    (hds : ∀ d ∈ ds, isHexDigit d) (hc : ¬isHexDigit c) :
    matchAt LIBRA_16_BYTES_REGEX ('0' :: 'x' :: (ds ++ c :: t)) =
      some ([['0'], ['x'], ds, [c]], t) := by
  have hend : matchAt [.one fun c => !isHexDigit c] (c :: t) = some ([[c]], t) :=
    @matchAt_one (fun c => !isHexDigit c) [] c t ([], t) (by simpa using hc) rfl
  have hdigits : matchAt [⟨isHexDigit, 1, some 32⟩, .one fun c => !isHexDigit c] (ds ++ c :: t) =
      some ([ds, [c]], t) := by
    apply matchAt_cons_all hds _ _ hlo hend
    · intro d r hr
      obtain ⟨rfl, rfl⟩ := List.cons.inj hr
      exact hc
    · intro m hm
      cases hm
      exact hhi
  exact matchAt_one (by decide) (matchAt_one (by decide) hdigits)

theorem matchAt_of_not_caught {s : Text} (h : ¬Caught s) : matchAt LIBRA_16_BYTES_REGEX s = none := by
  cases hm : matchAt LIBRA_16_BYTES_REGEX s with
  | none => rfl
  | some x =>
    obtain ⟨ds, c, -, hlo, hhi, hds, hc, hs⟩ := search_literal (search_of_matchAt hm)
    exact absurd ⟨ds, c, _, hs, hlo, hhi, hds, hc⟩ h

/-- What follows an `0x` decides nothing about what starts before it. -/
theorem Caught.congr {w t t' : Text} (hw : w ≠ []) (h : Caught (w ++ '0' :: 'x' :: t)) :
    Caught (w ++ '0' :: 'x' :: t') := by
  obtain ⟨ds, c, r, heq, hlo, hhi, hds, hc⟩ := h
  obtain ⟨a, w, rfl⟩ := List.exists_cons_of_ne_nil hw
  obtain ⟨rfl, htail⟩ := List.cons.inj heq
  cases w with
  | nil => exact absurd (List.cons.inj htail).1 (by decide)
  | cons b w =>
    obtain ⟨rfl, hdigits⟩ := List.cons.inj htail
    change w ++ '0' :: 'x' :: t = ds ++ c :: r at hdigits
    -- the digits end before the second `x`
    have hlen : ds.length ≤ w.length + 1 := by
      by_contra hlong
      have hx : ds[w.length + 1]? = some 'x' := by
        have hget := congrArg (·[w.length + 1]?) hdigits
        rw [List.getElem?_append_left (by omega : w.length + 1 < ds.length)] at hget
        rw [← hget]
        simp
      exact isHexDigit_x (hds 'x' (List.mem_of_getElem? hx))
    have hprefix : ds ++ [c] <+: w ++ ['0', 'x'] := by
      have hleft : ds ++ [c] <+: w ++ '0' :: 'x' :: t := ⟨r, by simp [hdigits]⟩
      have hright : w ++ ['0', 'x'] <+: w ++ '0' :: 'x' :: t := ⟨t, by simp⟩
      apply List.prefix_of_prefix_length_le hleft hright
      simp only [List.length_append, List.length_cons, List.length_nil]
      omega
    obtain ⟨r', hr'⟩ := hprefix
    refine ⟨ds, c, r' ++ t', ?_, hlo, hhi, hds, hc⟩
    rw [List.cons_append, List.cons_append]
    congr 2
    calc w ++ '0' :: 'x' :: t' = w ++ ['0', 'x'] ++ t' := by simp
      _ = ds ++ c :: (r' ++ t') := by rw [← hr']; simp

/-- No match starts in `u`. -/
def Settled (u v : Text) : Prop := ∀ w, w ≠ [] → w <:+ u → ¬Caught (w ++ v)

theorem Settled.nil (v : Text) : Settled [] v := by
  intro w hw hsuffix
  exact absurd (List.suffix_nil.mp hsuffix) hw

theorem Settled.append {u w v : Text} (hu : Settled u (w ++ v)) (hw : Settled w v) :
    Settled (u ++ w) v := by
  intro x hx hsuffix
  rcases List.suffix_or_suffix_of_suffix hsuffix (List.suffix_append u w) with h | h
  · exact hw x hx h
  · obtain ⟨y, rfl⟩ := h
    have hy : y <:+ u := by
      obtain ⟨z, hz⟩ := hsuffix
      rw [← List.append_assoc] at hz
      exact ⟨z, List.append_cancel_right hz⟩
    by_cases hnil : y = []
    · subst hnil
      exact hw w (by simpa using hx) (List.suffix_refl w)
    · rw [List.append_assoc]
      exact hu y hnil hy

/-- It stays so when the first `0x` behind `u` gets other digits. -/
theorem Settled.congr {u t t' : Text} (h : Settled u ('0' :: 'x' :: t)) :
    Settled u ('0' :: 'x' :: t') :=
  fun w hw hsuffix hcaught => h w hw hsuffix (hcaught.congr hw)

theorem Settled.cons {c : Char} {u v : Text} (hc : ¬Caught (c :: (u ++ v))) (hu : Settled u v) :
    Settled (c :: u) v := by
  intro w hw hsuffix
  rcases List.suffix_cons_iff.mp hsuffix with rfl | h
  · exact hc
  · exact hu w hw h

theorem not_caught_of_ne {c : Char} {s : Text} (h : c ≠ '0') : ¬Caught (c :: s) := by
  intro hcaught
  obtain ⟨ds, d, t, heq, -⟩ := hcaught
  exact h (List.cons.inj heq).1

theorem not_caught_second {c d : Char} {s : Text} (h : d ≠ 'x') : ¬Caught (c :: d :: s) := by
  intro hcaught
  obtain ⟨ds, e, t, heq, -⟩ := hcaught
  exact h (List.cons.inj (List.cons.inj heq).2).1

theorem settled_digits {ds v : Text} (hds : ∀ d ∈ ds, Hex.isHex d)
    (hlast : ds.getLast? = some '0' → ¬Caught ('0' :: v)) : Settled ds v := by
  induction ds with
  | nil => exact .nil v
  | cons d ds ih =>
    cases ds with
    | nil =>
      apply Settled.cons _ (.nil v)
      by_cases hd : d = '0'
      · subst hd
        exact hlast rfl
      · exact not_caught_of_ne hd
    | cons e ds =>
      have he : e ≠ 'x' := fun h => isHex_x (h ▸ hds e (by simp))
      exact Settled.cons (not_caught_second he)
        (ih (fun a ha => hds a (List.mem_cons_of_mem d ha)) hlast)

/-- The 40 digits that the code writes for the digits `ds`. -/
def widened (ds : Text) : Text := List.replicate (40 - ds.length) '0' ++ ds

theorem widened_length {ds : Text} (h : ds.length ≤ 32) : (widened ds).length = 40 := by
  simp only [widened, List.length_append, List.length_replicate]
  omega

theorem isHexDigit_widened {ds : Text} (h : ∀ d ∈ ds, isHexDigit d) : ∀ d ∈ widened ds, isHexDigit d := by
  intro d hd
  rcases List.mem_append.mp hd with hd | hd
  · obtain rfl := List.eq_of_mem_replicate hd
    decide
  · exact h d hd

theorem widened_getLast? {ds : Text} (h : ds ≠ []) : (widened ds).getLast? = ds.getLast? := by
  rw [widened, List.getLast?_append_of_ne_nil _ h]

/-- 40 digits are too many to be matched again. -/
theorem not_caught_widened {ds s : Text} (hhi : ds.length ≤ 32) (hds : ∀ d ∈ ds, isHexDigit d) :
    ¬Caught ('0' :: 'x' :: (widened ds ++ s)) := by
  intro hcaught
  obtain ⟨es, c, t, heq, -, hshort, hes, hc⟩ := hcaught
  simp only [List.cons.injEq, true_and] at heq
  have hlen := widened_length hhi
  have hget := congrArg (·[es.length]?) heq
  simp only [List.getElem?_append_left (show es.length < (widened ds).length by omega),
    List.getElem?_append_right le_rfl, Nat.sub_self, List.getElem?_cons_zero] at hget
  exact hc (isHexDigit_widened hds c (List.mem_of_getElem? hget))

section
variable {cr : Crate} (hcr : Documented cr) {u v : Text} {map : FileOffsetMap}

theorem search_settled (hu : Settled u v) {m : Match}
    (hm : search LIBRA_16_BYTES_REGEX (u ++ v) = some m) : ∃ w, m.before = u ++ w := by
  obtain ⟨ds, c, hitems, hlo, hhi, hds, hc, heq⟩ := search_literal hm
  rcases List.append_eq_append_iff.mp heq with ⟨w, hw, -⟩ | ⟨w, hw, hv⟩
  · exact ⟨w, hw⟩
  · by_cases hnil : w = []
    · exact ⟨[], by rw [hw, hnil, List.append_nil, List.append_nil]⟩
    · exact absurd ⟨ds, c, m.after, hv.symm, hlo, hhi, hds, hc⟩ (hu w hnil ⟨m.before, hw.symm⟩)

theorem search_at {ds t : Text} {c : Char} (hlo : 1 ≤ ds.length) (hhi : ds.length ≤ 32)
    (hds : ∀ d ∈ ds, isHexDigit d) (hc : ¬isHexDigit c)
    (hu : Settled u ('0' :: 'x' :: (ds ++ c :: t))) :
    search LIBRA_16_BYTES_REGEX (u ++ '0' :: 'x' :: (ds ++ c :: t)) =
      some ⟨u, [['0'], ['x'], ds, [c]], t⟩ := by
  induction u with
  | nil => exact search_of_matchAt (matchAt_literal hlo hhi hds hc)
  | cons a u ih =>
    have hhead := hu (a :: u) (List.cons_ne_nil a u) (List.suffix_refl _)
    have hrest : Settled u ('0' :: 'x' :: (ds ++ c :: t)) :=
      fun w hw hsuffix => hu w hw (hsuffix.trans (List.suffix_cons a u))
    have htail := ih hrest
    rw [List.cons_append] at hhead ⊢
    rw [search_cons (matchAt_of_not_caught hhead), htail]
    rfl

include hcr in
theorem nextAddress_match (map : FileOffsetMap) {a t ds text : Text} {c : Char} (hlo : 1 ≤ ds.length)
    (hhi : ds.length ≤ 32) (hds : ∀ d ∈ ds, isHexDigit d)
    (hm : search LIBRA_16_BYTES_REGEX text = some ⟨a, [['0'], ['x'], ds, [c]], t⟩) :
    ∃ map', nextAddress cr (text, map) =
      some (some (a ++ '0' :: 'x' :: (widened ds ++ c :: t), map')) := by
  obtain ⟨address, haddress, hdisplay⟩ := Option.map_eq_some_iff.mp (hcr ds hlo hhi hds)
  have haddress' : cr.fromHexLiteral ('0' :: 'x' :: ds) = some address := haddress
  have hzeros : "0x00000000".toList ++ (List.replicate (32 - ds.length) '0' ++ ds) =
      '0' :: 'x' :: widened ds := by
    have hsplit : 40 - ds.length = 8 + (32 - ds.length) := by omega
    rw [widened, hsplit, List.replicate_add]
    rfl
  refine ⟨map.insertAddressLayer (Text.len a + Text.len ('0' :: 'x' :: ds)) ('0' :: 'x' :: ds)
    ('0' :: 'x' :: widened ds), ?_⟩
  have hten : ∀ s : Text, "0x00000000".toList ++ s = '0' :: 'x' :: (List.replicate 8 '0' ++ s) :=
    fun s => rfl
  rw [hten] at hzeros
  simp only [nextAddress, hm, Match.capture, Match.replaceCapture]
  simp [haddress', hdisplay, ← (List.cons.inj (List.cons.inj hzeros).2).2]

include hcr in
theorem nextAddress_at (map : FileOffsetMap) {ds t : Text} {c : Char} (hlo : 1 ≤ ds.length)
    (hhi : ds.length ≤ 32)
    (hds : ∀ d ∈ ds, isHexDigit d) (hc : ¬isHexDigit c)
    (hu : Settled u ('0' :: 'x' :: (ds ++ c :: t))) :
    ∃ map', nextAddress cr (u ++ '0' :: 'x' :: (ds ++ c :: t), map) =
      some (some (u ++ '0' :: 'x' :: (widened ds ++ c :: t), map')) :=
  nextAddress_match hcr map hlo hhi hds (search_at hlo hhi hds hc hu)

include hcr in
/-- Where no match starts, nothing is changed any more. -/
theorem prefix_kept {fuel : ℕ} {x : Text × FileOffsetMap} (hu : Settled u v)
    (h : replaceLibraAddress cr fuel (u ++ v) map = some x) : u <+: x.1 := by
  induction fuel generalizing v map with
  | zero => cases h
  | succ fuel ih =>
    rw [replaceLibraAddress, whileLet] at h
    cases hsearch : search LIBRA_16_BYTES_REGEX (u ++ v) with
    | none =>
      simp only [nextAddress, hsearch, Option.some.injEq] at h
      rw [← h]
      exact List.prefix_append u v
    | some m =>
      obtain ⟨ds, c, hitems, hlo, hhi, hds, hc, heq⟩ := search_literal hsearch
      obtain ⟨w, hw⟩ := search_settled hu hsearch
      obtain ⟨before, items, after⟩ := m
      simp only at hw hitems heq
      subst hw hitems
      rw [List.append_assoc] at heq
      obtain rfl := List.append_cancel_left heq
      obtain ⟨map', hnext⟩ := nextAddress_match hcr map hlo hhi hds hsearch
      rw [hnext] at h
      simp only at h
      -- the next round starts from `u` and a text with the same characters up to the `0x`
      rw [List.append_assoc] at h
      refine ih ?_ h
      intro y hy hsuffix hcaught
      apply hu y hy hsuffix
      rw [← List.append_assoc] at hcaught ⊢
      exact hcaught.congr (by simp [hy])

theorem run_step {fuel : ℕ} {text text' : Text} {map map' : FileOffsetMap}
    (h : nextAddress cr (text, map) = some (some (text', map'))) :
    replaceLibraAddress cr (fuel + 1) text map = replaceLibraAddress cr fuel text' map' := by
  rw [replaceLibraAddress, whileLet, h]
  rfl

theorem fuel_pos {fuel : ℕ} {text : Text} {x : Text × FileOffsetMap}
    (h : replaceLibraAddress cr fuel text map = some x) : ∃ k, fuel = k + 1 := by
  cases fuel with
  | zero => cases h
  | succ k => exact ⟨k, rfl⟩

theorem search_none_of_settled {s : Text} (h : Settled s []) : search LIBRA_16_BYTES_REGEX s = none := by
  cases hsearch : search LIBRA_16_BYTES_REGEX s with
  | none => rfl
  | some m =>
    obtain ⟨ds, c, -, hlo, hhi, hds, hc, heq⟩ := search_literal hsearch
    have hcaught : Caught ('0' :: 'x' :: (ds ++ c :: m.after) ++ []) :=
      ⟨ds, c, m.after, List.append_nil _, hlo, hhi, hds, hc⟩
    exact absurd hcaught (h _ (List.cons_ne_nil _ _) ⟨m.before, heq.symm⟩)

theorem run_settled {fuel : ℕ} {s : Text} (h : Settled s []) :
    replaceLibraAddress cr (fuel + 1) s map = some (s, map) := by
  rw [replaceLibraAddress, whileLet, nextAddress, search_none_of_settled h]

theorem settled_literal {ds s : Text} (hstart : ¬Caught ('0' :: 'x' :: (ds ++ s)))
    (hds : ∀ d ∈ ds, Hex.isHex d) (hlast : ds.getLast? = some '0' → ¬Caught ('0' :: s)) :
    Settled ('0' :: 'x' :: ds) s :=
  Settled.cons hstart (Settled.cons (not_caught_of_ne (by decide)) (settled_digits hds hlast))

theorem Settled.literal {ds s s' : Text} (hu : Settled u ('0' :: 'x' :: s'))
    (h : Settled ('0' :: 'x' :: ds) s) : Settled (u ++ '0' :: 'x' :: ds) s :=
  Settled.append hu.congr h

end

end MoveTools.Compiler.LibraLiterals
