import MoveTools.Compiler.LibraLiterals

namespace MoveTools.Compiler.LibraLiterals
open Regex Loop LibraAddresses LibraRewriting

/-! When the rewriting of addresses keeps their values. -/

section
variable {cr : Crate} (hcr : Documented cr) {u v : Text} {map : FileOffsetMap}

theorem widened_split {ds : Text} (hhi : ds.length ≤ 32) (hds : ∀ d ∈ ds, isHexDigit d) :
    ∃ front last, widened ds = front ++ [last] ∧ front.length = 39 ∧ (∀ d ∈ front, isHexDigit d) ∧
      isHexDigit last := by
  have hlen := widened_length hhi
  have hne : widened ds ≠ [] := by
    intro h
    rw [h] at hlen
    cases hlen
  have hsplit := List.dropLast_append_getLast hne
  have hfront := congrArg List.length hsplit
  rw [List.length_append, List.length_singleton, hlen] at hfront
  refine ⟨_, _, hsplit.symm, by omega, fun d hd => ?_, ?_⟩
  · exact isHexDigit_widened hds d (List.mem_of_mem_dropLast hd)
  · exact isHexDigit_widened hds _ (List.getLast_mem hne)

include hcr in
/-- After a match the first 39 of the digits that were written stay. -/
theorem match_kept {ds t : Text} {c : Char} {fuel : ℕ} {x : Text × FileOffsetMap}
    (hlo : 1 ≤ ds.length) (hhi : ds.length ≤ 32) (hds : ∀ d ∈ ds, isHexDigit d)
    (hc : ¬isHexDigit c) (hu : Settled u ('0' :: 'x' :: (ds ++ c :: t)))
    (h : replaceLibraAddress cr fuel (u ++ '0' :: 'x' :: (ds ++ c :: t)) map = some x) :
    ∃ front, front.length = 39 ∧ (∀ d ∈ front, isHexDigit d) ∧ u ++ '0' :: 'x' :: front <+: x.1 := by
  obtain ⟨k, rfl⟩ := fuel_pos h
  obtain ⟨map', hnext⟩ := nextAddress_at hcr map hlo hhi hds hc hu
  rw [run_step hnext] at h
  obtain ⟨front, last, hwide, hlen, hfront, hlast⟩ := widened_split hhi hds
  refine ⟨front, hlen, hfront, ?_⟩
  have hstart : ¬Caught ('0' :: 'x' :: (front ++ last :: c :: t)) := by
    have hwidened : ¬Caught ('0' :: 'x' :: (widened ds ++ c :: t)) := not_caught_widened hhi hds
    rwa [hwide, List.append_assoc] at hwidened
  have hsecond : front.getLast? = some '0' → ¬Caught ('0' :: last :: c :: t) :=
    fun _ => not_caught_second fun hx => isHexDigit_x (hx ▸ hlast)
  have hsettled := hu.literal (settled_literal hstart
    (fun d hd => isHex_of_isHexDigit (hfront d hd)) hsecond)
  have hrun : replaceLibraAddress cr k (u ++ '0' :: 'x' :: front ++ last :: c :: t) map' = some x := by
    rw [← h, hwide]
    simp
  exact prefix_kept hcr hsettled hrun

theorem no_digit_behind {front es r : Text} {c : Char} (hlen : es.length < front.length)
    (hfront : ∀ d ∈ front, isHexDigit d) (hc : ¬isHexDigit c) : ¬front <+: es ++ c :: r := by
  intro h
  obtain ⟨r', hr'⟩ := h
  have hget := congrArg (·[es.length]?) hr'
  simp only [List.getElem?_append_left hlen, List.getElem?_append_right le_rfl, Nat.sub_self,
    List.getElem?_cons_zero] at hget
  exact hc (hfront c (List.mem_of_getElem? hget))

include hcr in
/-- A digit that was taken for the start of an address becomes more than it was. -/
theorem overrun_fails {after t : Text} {d : Char} {fuel : ℕ} {map' : FileOffsetMap}
    (hu : Settled u ('0' :: after)) (hcaught : Caught ('0' :: after))
    (h : replaceLibraAddress cr fuel (u ++ '0' :: after) map = some (u ++ d :: t, map')) :
    ¬Rewrites after t := by
  intro hrewrites
  obtain ⟨es, c, r, heq, hlo, hhi, hes, hc⟩ := hcaught
  obtain rfl : after = 'x' :: (es ++ c :: r) := (List.cons.inj heq).2
  obtain ⟨front, hlen, hfront, hprefix⟩ := match_kept hcr hlo hhi hes hc hu h
  have hx : NoLiteral ('x' :: (es ++ c :: r)) := fun ds s _ hs => absurd (List.cons.inj hs).1 (by decide)
  obtain ⟨t', rfl, ht'⟩ := (rewrites_other hx).mp hrewrites
  obtain ⟨r', rfl⟩ := ht'.keeps_digits rfl fun e he => isHex_of_isHexDigit (hes e he)
  have hfront' : front <+: es ++ c :: r' := by
    have := (List.prefix_append_right_inj u).mp hprefix
    simpa using (List.cons_prefix_cons.mp (List.cons_prefix_cons.mp this).2).2
  exact no_digit_behind (by omega) hfront hc hfront'

theorem value_cons (c : Char) (ds : Text) :
    Hex.value (c :: ds) = Hex.digitValue c * 16 ^ ds.length + Hex.value ds := by
  induction ds using List.reverseRecOn with
  | nil => simp [Hex.value]
  | append_singleton ds d ih =>
    rw [← List.cons_append, Hex.value_concat, ih, Hex.value_concat, List.length_append,
      List.length_singleton, pow_succ]
    ring

theorem ten_le_digitValue {c : Char} (hc : ¬isHexDigit c) (h : Hex.isHex c) :
    10 ≤ Hex.digitValue c := by
  have hlower : Hex.isLower c = false := by simpa [isHexDigit, Hex.isLower] using hc
  simp only [Hex.isHex, hlower, Bool.false_or, Bool.and_eq_true, decide_eq_true_eq, Char.le_def,
    UInt32.le_iff_toNat_le, Char.reduceVal, UInt32.reduceToNat, Char.toNat_val] at h
  simp only [Hex.digitValue, Char.le_def, UInt32.le_iff_toNat_le, Char.reduceVal,
    UInt32.reduceToNat, Char.reduceToNat, Char.toNat_val]
  rw [if_neg (by omega), if_pos h.2]
  omega

theorem upper_split {ds : Text} (hds : ∀ d ∈ ds, Hex.isHex d) (hupper : ¬∀ d ∈ ds, isHexDigit d) :
    ∃ lo up rest, ds = lo ++ up :: rest ∧ (∀ d ∈ lo, isHexDigit d) ∧ ¬isHexDigit up ∧
      Hex.isHex up := by
  have hne : ds.dropWhile isHexDigit ≠ [] := fun h =>
    hupper (List.dropWhile_eq_nil_iff.mp h)
  obtain ⟨up, rest, hrest⟩ := List.exists_cons_of_ne_nil hne
  have hsplit := List.takeWhile_append_dropWhile (p := isHexDigit) (l := ds)
  rw [hrest] at hsplit
  refine ⟨_, up, rest, hsplit.symm, fun d hd => List.mem_takeWhile_imp hd, ?_, ?_⟩
  · have hhead := List.head_dropWhile_not isHexDigit hne
    simp only [hrest, List.head_cons] at hhead
    simp [hhead]
  · exact hds up (by rw [← hsplit]; simp)

section
variable {ds after t : Text} {fuel : ℕ} {map' : FileOffsetMap} (hlit : IsLiteral ds after)
  (hu : Settled u ('0' :: 'x' :: (ds ++ after)))
  (h : replaceLibraAddress cr fuel (u ++ '0' :: 'x' :: (ds ++ after)) map = some (u ++ t, map'))
include hlit hu h

include hcr in
/-- An address whose first digit is in upper case stays too short. -/
theorem upper_first_fails {up : Char} {rest : Text} (hds : ds = up :: rest)
    (hup : ¬isHexDigit up) (hlen : ds.length ≤ 32) :
    ¬Rewrites ('0' :: 'x' :: (ds ++ after)) t := by
  intro hrewrites
  subst hds
  obtain ⟨ds', t', rfl, hlen', hex, hvalue, -⟩ := rewrites_address hlit hlen hrewrites
  have hstart : ¬Caught ('0' :: 'x' :: ([up] ++ (rest ++ after))) := by
    intro hcaught
    obtain ⟨es, c, r, heq, hlo, -, hes, -⟩ := hcaught
    obtain ⟨e, es, rfl⟩ := List.exists_cons_of_ne_nil (List.length_pos_iff.mp hlo)
    simp only [List.cons_append, List.cons.injEq, true_and] at heq
    exact hup (heq.1 ▸ hes e List.mem_cons_self)
  have hupper : ∀ d ∈ [up], Hex.isHex d := fun d hd =>
    hlit.digits d (List.mem_singleton.mp hd ▸ List.mem_cons_self)
  have hzero : up ≠ '0' := fun h0 => hup (h0 ▸ by decide)
  have hsettled := hu.literal (settled_literal hstart hupper fun h0 => absurd (by simpa using h0) hzero)
  have hrun : replaceLibraAddress cr fuel (u ++ '0' :: 'x' :: [up] ++ (rest ++ after)) map =
      some (u ++ '0' :: 'x' :: (ds' ++ t'), map') := by
    rw [← h]
    simp
  have hkept := (List.prefix_append_right_inj u).mp (prefix_kept hcr hsettled hrun)
  obtain ⟨e, es, rfl⟩ := List.exists_cons_of_ne_nil (show ds' ≠ [] by
    intro hnil
    simp [hnil] at hlen')
  obtain rfl : up = e := by simpa using hkept
  -- 32 digits are less than a first of 40
  have hsmall : Hex.value (up :: rest) < 16 ^ 32 :=
    (Hex.value_lt hlit.digits).trans_le (Nat.pow_le_pow_right (by norm_num) hlen)
  have hlarge := value_cons up es
  have hten := ten_le_digitValue hup (hlit.digits up List.mem_cons_self)
  obtain hes : es.length = 39 := by simpa using hlen'
  rw [hvalue, hes] at hlarge
  have hfirst : 10 * 16 ^ 39 ≤ Hex.digitValue up * 16 ^ 39 := Nat.mul_le_mul_right _ hten
  norm_num at hsmall hfirst hlarge
  omega

include hcr in
/-- One that has a digit in upper case later on becomes too long. -/
theorem upper_behind_fails {lo rest : Text} {up : Char} (hds : ds = lo ++ up :: rest)
    (hne : lo ≠ []) (hlower : ∀ d ∈ lo, isHexDigit d) (hup : ¬isHexDigit up)
    (hlen : ds.length ≤ 32) : ¬Rewrites ('0' :: 'x' :: (ds ++ after)) t := by
  intro hrewrites
  subst hds
  obtain ⟨ds', t', rfl, hlen', -, -, hafter⟩ := rewrites_address hlit hlen hrewrites
  have hlo := List.length_pos_iff.mpr hne
  have hhi : lo.length ≤ 32 := by
    rw [List.length_append] at hlen
    omega
  have hhex : Hex.isHex up := hlit.digits up (by simp)
  have hzero : up ≠ '0' := fun h0 => hup (h0 ▸ by decide)
  rw [List.append_assoc, List.cons_append] at hu h
  obtain ⟨k, rfl⟩ := fuel_pos h
  obtain ⟨map₁, hnext⟩ := nextAddress_at hcr map hlo hhi hlower hup hu
  rw [run_step hnext] at h
  have hstart : ¬Caught ('0' :: 'x' :: (widened lo ++ [up] ++ (rest ++ after))) := by
    rw [List.append_assoc]
    exact not_caught_widened hhi hlower
  have hdigits : ∀ d ∈ widened lo ++ [up], Hex.isHex d := by
    intro d hd
    rcases List.mem_append.mp hd with hd | hd
    · exact isHex_of_isHexDigit (isHexDigit_widened hlower d hd)
    · exact List.mem_singleton.mp hd ▸ hhex
  have hsettled := hu.literal (settled_literal hstart hdigits fun h0 => absurd (by simpa using h0) hzero)
  have hrun : replaceLibraAddress cr k
      (u ++ '0' :: 'x' :: (widened lo ++ [up]) ++ (rest ++ after)) map₁ =
        some (u ++ '0' :: 'x' :: (ds' ++ t'), map') := by
    rw [← h]
    simp
  have hkept : widened lo ++ [up] <+: ds' ++ t' := by
    have := (List.prefix_append_right_inj u).mp (prefix_kept hcr hsettled hrun)
    simpa using this
  -- behind the 40 digits stands the one in upper case, and not what stood behind the literal
  obtain ⟨r, hr⟩ := hkept
  rw [List.append_assoc] at hr
  obtain ⟨-, rfl⟩ := List.append_inj hr ((widened_length hhi).trans hlen'.symm)
  generalize hs : [up] ++ r = s at hafter
  cases hafter with
  | nil => cases hs
  | other _ _ =>
    obtain ⟨rfl, -⟩ := List.cons.inj hs
    exact hlit.maximal _ _ rfl hhex
  | long _ _ _ => exact hzero (List.cons.inj hs).1
  | address _ _ _ _ _ _ => exact hzero (List.cons.inj hs).1

omit hlit in
theorem end_fails (hafter : after = []) (hlower : ∀ d ∈ ds, isHexDigit d)
    (hlit : IsLiteral ds []) (hlen : ds.length ≤ 32) : ¬Rewrites ('0' :: 'x' :: (ds ++ after)) t := by
  subst hafter
  intro hrewrites
  obtain ⟨ds', t', rfl, hlen', -, -, -⟩ := rewrites_address hlit hlen hrewrites
  have hstart : ¬Caught ('0' :: 'x' :: (ds ++ [])) := by
    intro hcaught
    obtain ⟨es, c, r, heq, -, -, -, hc⟩ := hcaught
    simp only [List.append_nil, List.cons.injEq, true_and] at heq
    exact hc (hlower c (by simp [heq]))
  have hlast : ds.getLast? = some '0' → ¬Caught ['0'] := by
    intro _ hcaught
    obtain ⟨es, c, r, heq, -⟩ := hcaught
    cases heq
  have hsettled := hu.literal (settled_literal hstart hlit.digits hlast)
  obtain ⟨k, rfl⟩ := fuel_pos h
  rw [List.append_nil, run_settled hsettled] at h
  have hlens := congrArg List.length (List.append_cancel_left (Prod.mk.inj (Option.some.inj h)).1)
  simp only [List.length_cons, List.length_append] at hlens
  omega

include hcr in
theorem address_overrun_fails (hlower : ∀ d ∈ ds, isHexDigit d) (hafter : after ≠ [])
    (hlen : ds.length ≤ 32) (hlast : ds.getLast? = some '0') (hcaught : Caught ('0' :: after)) :
    ¬Rewrites ('0' :: 'x' :: (ds ++ after)) t := by
  intro hrewrites
  obtain ⟨ds', t', rfl, hlen', -, -, hrest⟩ := rewrites_address hlit hlen hrewrites
  obtain ⟨es, c, r, heq, -⟩ := id hcaught
  obtain rfl : after = 'x' :: (es ++ c :: r) := (List.cons.inj heq).2
  obtain ⟨k, rfl⟩ := fuel_pos h
  obtain ⟨map₁, hnext⟩ :=
    nextAddress_at hcr map (List.length_pos_iff.mpr hlit.nonempty) hlen hlower isHexDigit_x hu
  rw [run_step hnext] at h
  -- the first 39 digits are settled, and the last one is matched again
  obtain ⟨front, last, hwide, hfront, hdigits, -⟩ := widened_split hlen hlower
  obtain rfl : last = '0' := by
    have hget := widened_getLast? hlit.nonempty
    rw [hwide, hlast] at hget
    simpa using hget
  have hstart : ¬Caught ('0' :: 'x' :: (front ++ '0' :: 'x' :: (es ++ c :: r))) := by
    have hwidened : ¬Caught ('0' :: 'x' :: (widened ds ++ 'x' :: (es ++ c :: r))) :=
      not_caught_widened hlen hlower
    rwa [hwide, List.append_assoc] at hwidened
  have hsecond : front.getLast? = some '0' → ¬Caught ('0' :: '0' :: 'x' :: (es ++ c :: r)) :=
    fun _ => not_caught_second (by decide)
  have hsettled := hu.literal (settled_literal hstart
    (fun d hd => isHex_of_isHexDigit (hdigits d hd)) hsecond)
  have hrun : replaceLibraAddress cr k
      (u ++ '0' :: 'x' :: front ++ '0' :: 'x' :: (es ++ c :: r)) map₁ =
        some (u ++ '0' :: 'x' :: (ds' ++ t'), map') := by
    rw [← h, hwide]
    simp
  have hkept : front <+: ds' ++ t' := by
    have := (List.prefix_append_right_inj u).mp (prefix_kept hcr hsettled hrun)
    simpa using this
  have hfront' : front <+: ds' :=
    List.prefix_of_prefix_length_le hkept (List.prefix_append ds' t') (by omega)
  obtain ⟨w, rfl⟩ := hfront'
  obtain ⟨d, rfl⟩ : ∃ d, w = [d] := by
    apply List.length_eq_one_iff.mp
    rw [List.length_append] at hlen'
    omega
  have hfinal : replaceLibraAddress cr k
      (u ++ '0' :: 'x' :: front ++ '0' :: 'x' :: (es ++ c :: r)) map₁ =
        some (u ++ '0' :: 'x' :: front ++ d :: t', map') := by
    rw [hrun]
    simp
  exact overrun_fails hcr hsettled hcaught hfinal hrest

include hcr in
theorem long_caught_fails (hlen : 32 < ds.length) (hcaught : Caught ('0' :: 'x' :: (ds ++ after))) :
    ¬Rewrites ('0' :: 'x' :: (ds ++ after)) t := by
  intro hrewrites
  obtain ⟨t', rfl, -⟩ := (rewrites_long hlit hlen).mp hrewrites
  obtain ⟨es, c, r, heq, hlo, hhi, hes, hc⟩ := hcaught
  rw [heq] at hu h
  obtain ⟨front, hfront, hdigits, hprefix⟩ := match_kept hcr hlo hhi hes hc hu h
  simp only [List.cons.injEq, true_and] at heq
  have hkept : front <+: ds ++ t' := by
    have := (List.prefix_append_right_inj u).mp hprefix
    simpa using this
  -- the literal goes on with the character that ended the match
  have hsplit : ∃ rest, ds = es ++ c :: rest := by
    rcases List.append_eq_append_iff.mp heq with ⟨w, hw, -⟩ | ⟨w, hw, hw'⟩
    · have := congrArg List.length hw
      rw [List.length_append] at this
      omega
    · cases w with
      | nil =>
        have := congrArg List.length hw
        rw [List.append_nil] at this
        omega
      | cons d w =>
        obtain ⟨rfl, -⟩ := List.cons.inj hw'
        exact ⟨w, hw⟩
  obtain ⟨rest, rfl⟩ := hsplit
  rw [List.append_assoc, List.cons_append] at hkept
  exact no_digit_behind (by omega) hdigits hc hkept

include hcr in
theorem long_overrun_fails (hlen : 32 < ds.length)
    (hstart : ¬Caught ('0' :: 'x' :: (ds ++ after))) (hlast : ds.getLast? = some '0')
    (hcaught : Caught ('0' :: after)) : ¬Rewrites ('0' :: 'x' :: (ds ++ after)) t := by
  intro hrewrites
  obtain ⟨t', rfl, hrest⟩ := (rewrites_long hlit hlen).mp hrewrites
  obtain ⟨front, rfl⟩ : ∃ front, ds = front ++ ['0'] := by
    obtain ⟨hne, heq⟩ := List.getLast?_eq_some_iff.mp hlast
    exact ⟨_, heq⟩
  rw [List.append_assoc] at hstart hu h
  have hsecond : front.getLast? = some '0' → ¬Caught ('0' :: '0' :: after) :=
    fun _ => not_caught_second (by decide)
  have hsettled := hu.literal (settled_literal hstart
    (fun d hd => hlit.digits d (List.mem_append_left _ hd)) hsecond)
  have hfinal : replaceLibraAddress cr fuel (u ++ '0' :: 'x' :: front ++ '0' :: after) map =
      some (u ++ '0' :: 'x' :: front ++ '0' :: t', map') := by
    simpa using h
  exact overrun_fails hcr hsettled hcaught hfinal hrest

include hcr in
/-- A literal that is not understood comes out wrong, whatever is done behind it. -/
theorem literal_fails (hbad : ¬Understood ds after) : ¬Rewrites ('0' :: 'x' :: (ds ++ after)) t := by
  by_cases hlen : ds.length ≤ 32
  · by_cases hlower : ∀ d ∈ ds, isHexDigit d
    · by_cases hafter : after = []
      · exact end_fails hu h hafter hlower (hafter ▸ hlit) hlen
      · have hapart : ¬(ds.getLast? = some '0' → ¬Caught ('0' :: after)) := fun hapart =>
          hbad ⟨fun _ => ⟨hlower, hafter⟩, fun hlong => absurd hlong (by omega), hapart⟩
        simp only [Classical.not_imp, not_not] at hapart
        exact address_overrun_fails hcr hlit hu h hlower hafter hlen hapart.1 hapart.2
    · obtain ⟨lo, up, rest, hds, hlo, hup, -⟩ := upper_split hlit.digits hlower
      by_cases hne : lo = []
      · exact upper_first_fails hcr hlit hu h (by rw [hds, hne, List.nil_append]) hup hlen
      · exact upper_behind_fails hcr hlit hu h hds hne hlo hup hlen
  · have hlong : 32 < ds.length := by omega
    by_cases hcaught : Caught ('0' :: 'x' :: (ds ++ after))
    · exact long_caught_fails hcr hlit hu h hlong hcaught
    · have hapart : ¬(ds.getLast? = some '0' → ¬Caught ('0' :: after)) := fun hapart =>
        hbad ⟨fun h => absurd h hlen, fun _ => hcaught, hapart⟩
      simp only [Classical.not_imp, not_not] at hapart
      exact long_overrun_fails hcr hlit hu h hlong hcaught hapart.1 hapart.2

end

theorem caught_literal {s : Text} (h : Caught s) : ¬NoLiteral s := by
  intro hno
  obtain ⟨ds, c, t, rfl, hlo, -, hds, -⟩ := h
  have hsplit := List.takeWhile_append_dropWhile (p := Hex.isHex) (l := ds ++ c :: t)
  refine hno _ _ ⟨?_, fun d hd => List.mem_takeWhile_imp hd, ?_⟩ (by rw [hsplit])
  · obtain ⟨d, ds, rfl⟩ := List.exists_cons_of_ne_nil (List.length_pos_iff.mp hlo)
    rw [List.cons_append, List.takeWhile_cons_of_pos (isHex_of_isHexDigit (hds d List.mem_cons_self))]
    exact List.cons_ne_nil _ _
  · intro d r hr
    have hhead := List.head_dropWhile_not Hex.isHex (l := ds ++ c :: t) (by simp [hr])
    simp only [hr, List.head_cons] at hhead
    simp [hhead]

end

/-- The loop comes to an end, having rewritten `s` behind `u`. -/
def RunRewrites (cr : Crate) (fuel : ℕ) (map : FileOffsetMap) (u s : Text) : Prop :=
  ∃ t map', replaceLibraAddress cr fuel (u ++ s) map = some (u ++ t, map') ∧ Rewrites s t

section
variable {cr : Crate} {u : Text} {map : FileOffsetMap} {fuel : ℕ}

theorem runRewrites_other {c : Char} {s : Text} (h : NoLiteral (c :: s)) :
    RunRewrites cr fuel map u (c :: s) ↔ RunRewrites cr fuel map (u ++ [c]) s := by
  constructor
  · intro hrun
    obtain ⟨t, map', ht, hrewrites⟩ := hrun
    obtain ⟨t', rfl, hrest⟩ := (rewrites_other h).mp hrewrites
    exact ⟨t', map', by simpa using ht, hrest⟩
  · intro hrun
    obtain ⟨t, map', ht, hrest⟩ := hrun
    exact ⟨c :: t, map', by simpa using ht, .other h hrest⟩

theorem runRewrites_long {ds after : Text} (hlit : IsLiteral ds after) (hlen : 32 < ds.length) :
    RunRewrites cr fuel map u ('0' :: 'x' :: (ds ++ after)) ↔
      RunRewrites cr fuel map (u ++ '0' :: 'x' :: ds) after := by
  constructor
  · intro hrun
    obtain ⟨t, map', ht, hrewrites⟩ := hrun
    obtain ⟨t', rfl, hrest⟩ := (rewrites_long hlit hlen).mp hrewrites
    exact ⟨t', map', by simpa using ht, hrest⟩
  · intro hrun
    obtain ⟨t, map', ht, hrest⟩ := hrun
    exact ⟨'0' :: 'x' :: (ds ++ t), map', by simpa using ht, .long hlit hlen hrest⟩

theorem Understood.settled {ds after : Text} (hlit : IsLiteral ds after) (h : Understood ds after)
    (hlen : 32 < ds.length) : Settled ('0' :: 'x' :: ds) after :=
  settled_literal (h.long hlen) hlit.digits h.apart

theorem Understood.settled_widened {ds after : Text} (hlit : IsLiteral ds after)
    (h : Understood ds after) (hlen : ds.length ≤ 32) :
    Settled ('0' :: 'x' :: widened ds) after := by
  have hlower := (h.address hlen).1
  apply settled_literal (not_caught_widened hlen hlower)
    fun d hd => isHex_of_isHexDigit (isHexDigit_widened hlower d hd)
  rw [widened_getLast? hlit.nonempty]
  exact h.apart

theorem runRewrites_address (hcr : Documented cr) (map : FileOffsetMap) (fuel : ℕ)
    {ds after : Text} (hlit : IsLiteral ds after)
    (h : Understood ds after) (hlen : ds.length ≤ 32)
    (hu : Settled u ('0' :: 'x' :: (ds ++ after))) :
    ∃ map₁, RunRewrites cr (fuel + 1) map u ('0' :: 'x' :: (ds ++ after)) ↔
      RunRewrites cr fuel map₁ (u ++ '0' :: 'x' :: widened ds) after := by
  obtain ⟨hlower, hafter⟩ := h.address hlen
  obtain ⟨c, r, rfl⟩ := List.exists_cons_of_ne_nil hafter
  have hc : ¬isHexDigit c := fun hc => hlit.maximal c r rfl (isHex_of_isHexDigit hc)
  obtain ⟨map₁, hnext⟩ :=
    nextAddress_at hcr map (List.length_pos_iff.mpr hlit.nonempty) hlen hlower hc hu
  have hsettled := hu.literal (h.settled_widened hlit hlen)
  refine ⟨map₁, ?_⟩
  constructor
  · intro hrun
    obtain ⟨t, map', ht, hrewrites⟩ := hrun
    rw [run_step hnext] at ht
    obtain ⟨ds', t', rfl, hlen', -, -, hrest⟩ := rewrites_address hlit hlen hrewrites
    have hrun : replaceLibraAddress cr fuel (u ++ '0' :: 'x' :: widened ds ++ c :: r) map₁ =
        some (u ++ '0' :: 'x' :: (ds' ++ t'), map') := by
      rw [← ht]
      simp
    -- the digits that were written are the ones that are there in the end
    obtain ⟨w, hw⟩ : widened ds <+: ds' ++ t' := by
      have := (List.prefix_append_right_inj u).mp (prefix_kept hcr hsettled hrun)
      simpa using this
    obtain ⟨rfl, rfl⟩ := List.append_inj hw ((widened_length hlen).trans hlen'.symm)
    exact ⟨w, map', by rw [hrun]; simp, hrest⟩
  · intro hrun
    obtain ⟨t, map', ht, hrest⟩ := hrun
    refine ⟨'0' :: 'x' :: (widened ds ++ t), map', ?_, ?_⟩
    · rw [run_step hnext]
      simpa using ht
    · exact .address hlit hlen (widened_length hlen)
        (fun d hd => isHex_of_isHexDigit (isHexDigit_widened hlower d hd))
        (Hex.value_replicate_zero _ _) hrest

theorem forall_literalAt {ds after : Text} (h : IsLiteral ds after) :
    (∀ es s, LiteralAt ('0' :: 'x' :: (ds ++ after)) es s → Understood es s) ↔
      Understood ds after ∧ ∀ es s, LiteralAt after es s → Understood es s := by
  constructor
  · intro hall
    exact ⟨hall _ _ (.here h), fun es s hat => hall es s (.behind h hat)⟩
  · intro hboth es s hat
    rcases (literalAt_literal h).mp hat with ⟨rfl, rfl⟩ | hat
    · exact hboth.1
    · exact hboth.2 es s hat

/-- The loop over what is left behind a settled text. -/
theorem runRewrites_iff (hcr : Documented cr) {s : Text} (hfuel : s.length < fuel)
    (hu : Settled u s) :
    RunRewrites cr fuel map u s ↔ ∀ ds after, LiteralAt s ds after → Understood ds after := by
  induction hn : s.length using Nat.strong_induction_on generalizing s u map fuel with
  | _ n ih =>
    subst hn
    obtain ⟨k, rfl⟩ : ∃ k, fuel = k + 1 := ⟨fuel - 1, by omega⟩
    -- by what stands first: nothing, a literal, or a character of no literal
    rcases scan_cases s with rfl | ⟨ds, after, hlit, rfl⟩ | ⟨c, s, hno, rfl⟩
    · have hrun : RunRewrites cr (k + 1) map u [] :=
        ⟨[], map, by rw [List.append_nil]; exact run_settled hu, .nil⟩
      exact ⟨fun _ ds after hat => absurd hat (by intro hat; cases hat), fun _ => hrun⟩
    · have hshorter : after.length < ('0' :: 'x' :: (ds ++ after)).length := by
        simp only [List.length_cons, List.length_append]
        omega
      rw [forall_literalAt hlit]
      by_cases hgood : Understood ds after
      · rw [and_iff_right hgood]
        by_cases hlen : ds.length ≤ 32
        · obtain ⟨map₁, hstep⟩ := runRewrites_address hcr map k hlit hgood hlen hu
          rw [hstep]
          exact ih _ hshorter (by omega) (hu.literal (hgood.settled_widened hlit hlen)) rfl
        · have hlong : 32 < ds.length := by omega
          rw [runRewrites_long hlit hlong]
          exact ih _ hshorter (by omega) (hu.literal (hgood.settled hlit hlong)) rfl
      -- the first literal that is not understood ends the rewriting
      · constructor
        · intro hrun
          obtain ⟨t, map', ht, hrewrites⟩ := hrun
          exact absurd hrewrites (literal_fails hcr hlit hu ht hgood)
        · intro h
          exact absurd h.1 hgood
    · have hsettled : Settled (u ++ [c]) s := by
        apply Settled.append hu
        exact Settled.cons (fun hcaught => caught_literal hcaught hno) (.nil s)
      rw [runRewrites_other hno]
      simp only [literalAt_other hno]
      rw [List.length_cons] at hfuel
      exact ih _ (Nat.lt_succ_self _) (by omega) hsettled rfl

/-- The literals of a text keep their values exactly if each of them is understood. -/
theorem replaceLibraAddress_keeps_values_iff (hcr : Documented cr) (s : Text) (map : FileOffsetMap)
    (hfuel : s.length < fuel) :
    (∃ t map', replaceLibraAddress cr fuel s map = some (t, map') ∧ Rewrites s t) ↔
      ∀ ds after, LiteralAt s ds after → Understood ds after := by
  have hiff : RunRewrites cr fuel map [] s ↔ _ := runRewrites_iff hcr hfuel (Settled.nil s)
  exact hiff

end

theorem digits_1f : IsLiteral "1f".toList [';'] where
  nonempty := by decide
  digits := List.all_eq_true.mp (by decide)
  maximal := by
    intro c t h
    obtain ⟨rfl, -⟩ := List.cons.inj h
    decide

theorem keeps_values_lower : ∃ t map',
    replaceLibraAddress digitsCrate 10 "0x1f;".toList {} = some (t, map') ∧
      Rewrites "0x1f;".toList t := by
  apply (replaceLibraAddress_keeps_values_iff digitsCrate_documented _ _ (by decide)).mpr
  apply (forall_literalAt digits_1f).mpr
  constructor
  · exact ⟨fun _ => ⟨List.all_eq_true.mp (by decide), by decide⟩, fun h => absurd h (by decide),
      fun h => absurd h (by decide)⟩
  · intro ds after hat
    have hno : NoLiteral [';'] := fun es s _ h => absurd (List.cons.inj h).1 (by decide)
    cases (literalAt_other hno).mp hat

theorem digits_1F : IsLiteral "1F".toList [';'] where
  nonempty := by decide
  digits := List.all_eq_true.mp (by decide)
  maximal := digits_1f.maximal

/-- `0x1F;` becomes an `0x` with 41 digits. -/
theorem upperCase_mistaken : ¬∃ t map',
    replaceLibraAddress digitsCrate 10 "0x1F;".toList {} = some (t, map') ∧
      Rewrites "0x1F;".toList t := by
  intro h
  have hrun : RunRewrites digitsCrate 10 {} [] "0x1F;".toList := h
  have hall := (runRewrites_iff digitsCrate_documented (by decide) (Settled.nil _)).mp hrun
  have hlower := ((hall _ _ (.here digits_1F)).address (by decide)).1
  exact absurd (hlower 'F' (by decide)) (by decide)

end MoveTools.Compiler.LibraLiterals
