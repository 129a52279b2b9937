import MoveTools.Compiler.LibraLiterals

namespace MoveTools.Compiler.LibraTermination
open Regex Loop LibraAddresses LibraRewriting LibraLiterals

/-! The loop of `replace_libra_address` ends: the places where its expression can match grow fewer. -/

abbrev places (text : Text) : List ℕ := positions LIBRA_16_BYTES_REGEX text

/-- One replacement: fewer places are left, and each of them was one before, with the same text from
there on. -/
structure Replaced (text text' : Text) : Prop where
  fewer : (places text').length < (places text).length
  kept : ∃ k, ∀ j ∈ places text', ∃ i ∈ places text, j = i + k ∧ text'.drop j = text.drop i

/-- The loop ends, every turn of it replaces something, and no match is a wrong literal. -/
structure Terminates (cr : Crate) (source : Text) (map : FileOffsetMap) : Prop where
  ends : ∃ r, places r.1 = [] ∧ ∀ fuel, (places source).length < fuel →
    replaceLibraAddress cr fuel source map = some r
  replaces : ∀ {x x'}, nextAddress cr x = some (some x') → Replaced x.1 x'.1
  literal : ∀ {text m}, search LIBRA_16_BYTES_REGEX text = some m →
    ∃ address, cr.fromHexLiteral (m.capture 0 3 0).text = some address

theorem caught_iff {s : Text} : (matchAt LIBRA_16_BYTES_REGEX s).isSome ↔ Caught s := by
  constructor
  · intro h
    by_contra hs
    rw [matchAt_of_not_caught hs] at h
    cases h
  · rintro ⟨ds, c, t, rfl, hlo, hhi, hds, hc⟩
    rw [matchAt_literal hlo hhi hds hc]
    rfl

theorem settled_iff {u v : Text} : Settled u v ↔
    ∀ w, w ≠ [] → w <:+ u → matchAt LIBRA_16_BYTES_REGEX (w ++ v) = none := by
  refine forall_congr' fun w => imp_congr_right fun _ => imp_congr_right fun _ => ?_
  rw [← caught_iff, Option.not_isSome_iff_eq_none]

theorem places_settled {u v : Text} (h : Settled u v) :
    places (u ++ v) = (places v).map (· + u.length) :=
  positions_append (settled_iff.mp h)

/-- Behind its first digit, only the last digit of a literal can be a place. -/
theorem settled_tail {es s : Text} {d : Char} (hes : ∀ e ∈ es, Hex.isHex e) (hd : Hex.isHex d) :
    Settled ('x' :: es) (d :: s) := by
  apply Settled.cons (not_caught_of_ne (by decide))
  apply settled_digits hes
  intro _
  exact not_caught_second fun hx => isHex_x (hx ▸ hd)

theorem settled_number {es s : Text} {d : Char} (hes : ∀ e ∈ es, Hex.isHex e) (hd : Hex.isHex d)
    (hstart : ¬Caught ('0' :: 'x' :: (es ++ d :: s))) : Settled ('0' :: 'x' :: es) (d :: s) :=
  Settled.cons hstart (settled_tail hes hd)

theorem places_literal {a es s : Text} {d : Char} (hes : ∀ e ∈ es, Hex.isHex e)
    (hd : Hex.isHex d) (ha : Settled a ('0' :: 'x' :: (es ++ d :: s)))
    (hstart : Caught ('0' :: 'x' :: (es ++ d :: s))) :
    places (a ++ '0' :: 'x' :: (es ++ d :: s)) =
      a.length :: (places (d :: s)).map (· + (a.length + es.length + 2)) := by
  have htail := places_settled (settled_tail (s := s) hes hd)
  rw [List.cons_append, List.length_cons] at htail
  have hhead : places ('0' :: 'x' :: (es ++ d :: s)) =
      0 :: (places ('x' :: (es ++ d :: s))).map (· + 1) :=
    positions_match (caught_iff.mpr hstart)
  rw [places_settled ha, hhead, htail, List.map_cons, List.map_map, List.map_map, Nat.zero_add]
  congr 1
  apply List.map_congr_left
  intro i _
  simp only [Function.comp_apply]
  omega

theorem places_number {a es s : Text} {d : Char} (hes : ∀ e ∈ es, Hex.isHex e) (hd : Hex.isHex d)
    (ha : Settled a ('0' :: 'x' :: (es ++ d :: s)))
    (hstart : ¬Caught ('0' :: 'x' :: (es ++ d :: s))) :
    places (a ++ '0' :: 'x' :: (es ++ d :: s)) =
      (places (d :: s)).map (· + (a.length + es.length + 2)) := by
  have hall := places_settled (Settled.append (w := '0' :: 'x' :: es) (v := d :: s) ha
    (settled_number hes hd hstart))
  rw [List.append_assoc, List.cons_append, List.cons_append] at hall
  rw [hall]
  apply List.map_congr_left
  intro i _
  simp only [List.length_append, List.length_cons]
  omega

theorem widened_concat (es : Text) (d : Char) :
    widened (es ++ [d]) = List.replicate (39 - es.length) '0' ++ es ++ [d] := by
  rw [widened, List.length_append, List.length_singleton, List.append_assoc,
    show 40 - (es.length + 1) = 39 - es.length by omega]

theorem drop_number (a es s : Text) (k : ℕ) :
    (a ++ '0' :: 'x' :: (es ++ s)).drop (k + (a.length + es.length + 2)) = s.drop k := by
  have hlen : k + (a.length + es.length + 2) = (a ++ '0' :: 'x' :: es).length + k := by
    simp only [List.length_append, List.length_cons]
    omega
  have happ : a ++ '0' :: 'x' :: (es ++ s) = (a ++ '0' :: 'x' :: es) ++ s := by simp
  rw [hlen, ← List.drop_drop, happ, List.drop_left]

theorem replaced_literal {a ds t : Text} {c : Char} (hlo : 1 ≤ ds.length) (hhi : ds.length ≤ 32)
    (hds : ∀ d ∈ ds, isHexDigit d) (hc : ¬isHexDigit c)
    (ha : Settled a ('0' :: 'x' :: (ds ++ c :: t))) :
    Replaced (a ++ '0' :: 'x' :: (ds ++ c :: t)) (a ++ '0' :: 'x' :: (widened ds ++ c :: t)) := by
  have hcaught : Caught ('0' :: 'x' :: (ds ++ c :: t)) := ⟨ds, c, t, rfl, hlo, hhi, hds, hc⟩
  have hwide : ¬Caught ('0' :: 'x' :: (widened ds ++ c :: t)) := not_caught_widened hhi hds
  have ha' : Settled a ('0' :: 'x' :: (widened ds ++ c :: t)) := ha.congr
  have hhex : ∀ e ∈ widened ds, Hex.isHex e :=
    fun e he => isHex_of_isHexDigit (isHexDigit_widened hds e he)
  -- the last digit stays where it is, in front of `c`
  obtain ⟨es, d, rfl⟩ := List.eq_nil_or_concat ds |>.resolve_left (by rintro rfl; simp at hlo)
  rw [List.concat_eq_append] at *
  rw [widened_concat] at hwide ha' hhex ⊢
  have hlonger : es.length ≤ (List.replicate (39 - es.length) '0' ++ es).length := by
    rw [List.length_append]
    omega
  generalize List.replicate (39 - es.length) '0' ++ es = es' at hwide ha' hhex hlonger
  have hd : Hex.isHex d := isHex_of_isHexDigit (hds d (by simp))
  have hes : ∀ e ∈ es, Hex.isHex e := fun e he => isHex_of_isHexDigit (hds e (by simp [he]))
  have hes' : ∀ e ∈ es', Hex.isHex e := fun e he => hhex e (by simp [he])
  simp only [List.append_assoc, List.singleton_append] at hcaught hwide ha ha' ⊢
  have hold := places_literal hes hd ha hcaught
  have hnew := places_number hes' hd ha' hwide
  refine ⟨?_, es'.length - es.length, fun j hj => ?_⟩
  · rw [hold, hnew, List.length_cons, List.length_map, List.length_map]
    exact Nat.lt_succ_self _
  · rw [hnew] at hj
    obtain ⟨k, hk, rfl⟩ := List.mem_map.mp hj
    refine ⟨k + (a.length + es.length + 2), ?_, by omega, ?_⟩
    · rw [hold]
      exact List.mem_cons_of_mem _ (List.mem_map_of_mem hk)
    · rw [drop_number, drop_number]

theorem search_settled_before {text a t ds : Text} {c : Char}
    (h : search LIBRA_16_BYTES_REGEX text = some ⟨a, [['0'], ['x'], ds, [c]], t⟩) :
    Settled a ('0' :: 'x' :: (ds ++ c :: t)) := by
  apply settled_iff.mpr
  intro w hw hsuffix
  have hbefore := search_leftmost h hw hsuffix
  simpa using hbefore

variable {cr : Crate}

theorem nextAddress_cases (hcr : Documented cr) (x : Text × FileOffsetMap) :
    nextAddress cr x = some none ∧ places x.1 = [] ∨
      ∃ x', nextAddress cr x = some (some x') ∧ Replaced x.1 x'.1 := by
  obtain ⟨text, map⟩ := x
  cases hsearch : search LIBRA_16_BYTES_REGEX text with
  | none => exact .inl ⟨by simp [nextAddress, hsearch], positions_eq_nil hsearch⟩
  | some m =>
    obtain ⟨ds, c, hitems, hlo, hhi, hds, hc, rfl⟩ := search_literal hsearch
    obtain ⟨a, items, t⟩ := m
    obtain rfl : items = [['0'], ['x'], ds, [c]] := hitems
    obtain ⟨map', hnext⟩ := nextAddress_match hcr map hlo hhi hds hsearch
    exact .inr ⟨_, hnext, replaced_literal hlo hhi hds hc (search_settled_before hsearch)⟩

theorem fromHexLiteral_match (hcr : Documented cr) {text : Text} {m : Match}
    (h : search LIBRA_16_BYTES_REGEX text = some m) :
    ∃ address, cr.fromHexLiteral (m.capture 0 3 0).text = some address := by
  obtain ⟨ds, c, hitems, hlo, hhi, hds, -, -⟩ := search_literal h
  obtain ⟨address, haddress, -⟩ := Option.map_eq_some_iff.mp (hcr ds hlo hhi hds)
  refine ⟨address, ?_⟩
  rw [← haddress, Match.capture, hitems]
  simp

/-- The loop makes at most as many turns as there are places. -/
theorem replaceLibraAddress_ends (hcr : Documented cr) (source : Text) (map : FileOffsetMap) :
    ∃ r, places r.1 = [] ∧ ∀ fuel, (places source).length < fuel →
      replaceLibraAddress cr fuel source map = some r := by
  have hstep : ∀ {n x}, (places x.1).length = n → nextAddress cr x = some none ∨
      ∃ m x', m < n ∧ nextAddress cr x = some (some x') ∧ (places x'.1).length = m := by
    intro n x hn
    rcases nextAddress_cases hcr x with ⟨hend, -⟩ | ⟨x', hnext, hreplaced⟩
    · exact .inl hend
    · exact .inr ⟨_, x', hn ▸ hreplaced.fewer, hnext, rfl⟩
  have hplaces : (places (source, map).1).length = (places source).length := rfl
  obtain ⟨-, r, -, -, hend, hrun⟩ :=
    whileLet_ends (I := fun n (x : Text × FileOffsetMap) => (places x.1).length = n) hstep hplaces
  refine ⟨r, ?_, hrun⟩
  rcases nextAddress_cases hcr r with ⟨-, hnil⟩ | ⟨x', hnext, -⟩
  · exact hnil
  · rw [hend] at hnext
    cases hnext

theorem libra_loop_terminates (hcr : Documented cr) (source : Text) (map : FileOffsetMap) :
    Terminates cr source map where
  ends := replaceLibraAddress_ends hcr source map
  replaces {x x'} h := by
    rcases nextAddress_cases hcr x with ⟨hend, -⟩ | ⟨y, hnext, hreplaced⟩
    · rw [hend] at h
      cases h
    · rw [hnext] at h
      cases h
      exact hreplaced
  literal h := fromHexLiteral_match hcr h

/-- The last digit that is written for `0x0` becomes the start of `0x1`. -/
theorem overlapping_terminates : Terminates digitsCrate "0x0x1;".toList {} :=
  libra_loop_terminates digitsCrate_documented _ _

end MoveTools.Compiler.LibraTermination
