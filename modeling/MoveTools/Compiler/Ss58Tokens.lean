import MoveTools.Compiler.Ss58

namespace MoveTools.Compiler.Ss58
open Regex AddressLayers Text

variable (cr : Crates)

def ss58Form (run : Text) : Text :=
  if 40 ≤ run.length then (ss58ToLibra cr run).getD run else run

/-- Every run that is an address is replaced by its `0x` form, and nothing else is changed. -/
def RewritesRuns (source : Text) : Prop :=
  (replaceSs58Addresses cr source {}).1 = mapTokens isBase58Char (ss58Form cr) source

def foundIn (source : Text) : List Found := found (ss58ToLibra cr) (items source)

def formAmong (addresses : List Found) (run : Text) : Text :=
  if (addresses.map Found.address).contains run then ss58Form cr run else run

/-- When the turn of an address comes, the run does not hold it as a part. A run that is one of
the addresses before it is then in its `0x` form. -/
def Apart (addresses : List Found) (run : Text) : Prop :=
  ∀ before a after, addresses = before ++ a :: after →
    a.address <:+: formAmong cr before run → formAmong cr before run = a.address

def NoneInside (source : Text) : Prop :=
  ∀ run ∈ tokens isBase58Char source, Apart cr (foundIn cr source) run

variable {cr : Crates} {source : Text} {addresses : List Found} {run : Text}

theorem formAmong_of_mem (h : run ∈ addresses.map Found.address) :
    formAmong cr addresses run = ss58Form cr run :=
  if_pos (List.contains_iff_mem.mpr h)

theorem formAmong_of_notMem (h : run ∉ addresses.map Found.address) :
    formAmong cr addresses run = run :=
  if_neg fun hmem => h (List.contains_iff_mem.mp hmem)

theorem items_text (source : Text) :
    (items source).map Capture.text = (tokens isBase58Char source).filter (40 ≤ ·.length) := by
  have htokens : (findAll SS58_REGEX source.length source).map Match.items =
      ((tokens isBase58Char source).filter (40 ≤ ·.length)).map ([·]) :=
    findAll_tokens (by decide) rfl source
  have hitems := congrArg (List.map fun x : List Text => ((x.take 1).drop 0).flatten) htokens
  have hsingle : (fun x : List Text => ((x.take 1).drop 0).flatten) ∘ (fun w : Text => [w]) =
      id := by
    funext w
    simp
  rw [List.map_map, List.map_map, hsingle, List.map_id] at hitems
  rw [items, captures_text]
  exact hitems

theorem isBase58Char_zero : ¬ isBase58Char '0' := by decide

theorem mem_foundIn {a : Found} (h : a ∈ foundIn cr source) :
    (a.address ∈ tokens isBase58Char source ∧ 40 ≤ a.address.length) ∧
      ss58ToLibra cr a.address = some a.libra := by
  obtain ⟨item, hitem, ha⟩ := List.mem_filterMap.mp h
  obtain ⟨htext, hlibra, _⟩ := asFound_eq_some ha
  have hmem := List.mem_map_of_mem (f := Capture.text) hitem
  rw [items_text, List.mem_filter, decide_eq_true_iff, ← htext] at hmem
  exact ⟨hmem, hlibra⟩

def NoAddress (cr : Crates) (source : Text) : Prop :=
  ∀ run ∈ tokens isBase58Char source, 40 ≤ run.length → ss58ToLibra cr run = none

theorem foundIn_noAddress (h : NoAddress cr source) : foundIn cr source = [] := by
  apply List.eq_nil_iff_forall_not_mem.mpr
  intro a ha
  obtain ⟨⟨hrun, hlen⟩, hlibra⟩ := mem_foundIn ha
  rw [h a.address hrun hlen] at hlibra
  cases hlibra

theorem replaceSs58Addresses_noAddress (h : NoAddress cr source) :
    (replaceSs58Addresses cr source {}).1 = source := by
  have hfound : found (ss58ToLibra cr) (items source) = [] := foundIn_noAddress h
  rw [replaceSs58Addresses, (replaceAddresses_eq {}).1, hfound]
  rfl

theorem mem_address_of_token {libra : Text} (hrun : run ∈ tokens isBase58Char source)
    (hlen : 40 ≤ run.length) (h : ss58ToLibra cr run = some libra) :
    run ∈ (foundIn cr source).map Found.address := by
  have hmem : run ∈ (items source).map Capture.text := by
    rw [items_text]
    exact List.mem_filter.mpr ⟨hrun, decide_eq_true hlen⟩
  obtain ⟨item, hitem, rfl⟩ := List.mem_map.mp hmem
  have h0x : ¬ "0x".toList.isPrefixOf item.text := by
    rw [List.isPrefixOf_iff_prefix]
    intro hpre
    exact isBase58Char_zero (mem_tokens_isToken hrun '0' (hpre.subset List.mem_cons_self))
  have hfound : asFound (ss58ToLibra cr) item = some ⟨item.stop, item.text, libra⟩ := by
    rw [asFound, if_neg h0x, h]
    rfl
  exact List.mem_map.mpr ⟨_, List.mem_filterMap.mpr ⟨item, hitem, hfound⟩, rfl⟩

theorem formAmong_foundIn (hrun : run ∈ tokens isBase58Char source) :
    formAmong cr (foundIn cr source) run = ss58Form cr run := by
  by_cases hmem : run ∈ (foundIn cr source).map Found.address
  · exact formAmong_of_mem hmem
  · rw [formAmong_of_notMem hmem, ss58Form]
    split
    · rename_i hlen
      cases h : ss58ToLibra cr run with
      | none => rfl
      | some libra => exact absurd (mem_address_of_token hrun hlen h) hmem
    · rfl

/-- The addresses are replaced in every run by itself. -/
theorem substituteAll_mapTokens
    (h : ∀ a ∈ addresses, a.address ≠ [] ∧ ∀ c ∈ a.address, isBase58Char c) (f : Text → Text)
    (source : Text) : substituteAll addresses (mapTokens isBase58Char f source) =
      mapTokens isBase58Char (fun run => substituteAll addresses (f run)) source := by
  induction addresses generalizing f with
  | nil => rfl
  | cons a addresses ih =>
    obtain ⟨⟨hne, hchars⟩, hrest⟩ := List.forall_mem_cons.mp h
    rw [substituteAll, List.foldl_cons, replace_mapTokens hne a.libra hchars]
    exact ih hrest _

def AllValid (cr : Crates) (addresses : List Found) : Prop :=
  ∀ a ∈ addresses, 40 ≤ a.address.length ∧ ss58ToLibra cr a.address = some a.libra

theorem ss58Form_address {a : Found}
    (h : 40 ≤ a.address.length ∧ ss58ToLibra cr a.address = some a.libra) :
    ss58Form cr a.address = a.libra := by
  rw [ss58Form, if_pos h.1, h.2]
  rfl

theorem apart_concat {a : Found} : Apart cr (addresses ++ [a]) run ↔ Apart cr addresses run ∧
    (a.address <:+: formAmong cr addresses run → formAmong cr addresses run = a.address) := by
  constructor
  · intro h
    refine ⟨fun before b after hsplit => h before b (after ++ [a]) ?_, h addresses a [] rfl⟩
    rw [hsplit, List.append_assoc, List.cons_append]
  · rintro ⟨hapart, hlast⟩ before b after hsplit
    rcases List.eq_nil_or_concat after with rfl | ⟨after, c, rfl⟩
    · obtain ⟨rfl, hb⟩ := List.append_inj' hsplit rfl
      obtain rfl := List.singleton_inj.mp hb
      exact hlast
    · rw [List.concat_eq_append, ← List.cons_append, ← List.append_assoc] at hsplit
      exact hapart before b after (List.append_inj' hsplit rfl).1

theorem formAmong_len (h : cr.Documented) (hvalid : AllValid cr addresses) (run : Text) :
    (run ∉ addresses.map Found.address ∧ formAmong cr addresses run = run) ∨
      (run ∈ addresses.map Found.address ∧ Text.len run < 66 ∧
        Text.len (formAmong cr addresses run) = 66) := by
  by_cases hmem : run ∈ addresses.map Found.address
  · obtain ⟨a, ha, rfl⟩ := List.mem_map.mp hmem
    have hlen := ss58ToLibra_len h (hvalid a ha).2
    rw [formAmong_of_mem hmem, ss58Form_address (hvalid a ha)]
    exact .inr ⟨hmem, hlen.2.2, hlen.1⟩
  · exact .inl ⟨hmem, formAmong_of_notMem hmem⟩

/-- Where an address is replaced that stands in a run as a whole, or not at all. -/
theorem replace_formAmong (h : cr.Documented) {a : Found} (hvalid : AllValid cr (addresses ++ [a]))
    (hwhole : a.address <:+: formAmong cr addresses run → formAmong cr addresses run = a.address) :
    (formAmong cr addresses run).replace a.address a.libra =
      formAmong cr (addresses ++ [a]) run := by
  have ha := hvalid a (by simp)
  have hne : a.address ≠ [] := List.ne_nil_of_length_pos (by omega)
  have hmem : run ∈ (addresses ++ [a]).map Found.address ↔
      run ∈ addresses.map Found.address ∨ run = a.address := by
    simp [List.mem_map]
  have hinit : AllValid cr addresses := fun b hb => hvalid b (by simp [hb])
  have hlen := formAmong_len h hinit run
  by_cases hocc : a.address <:+: formAmong cr addresses run
  · have hform := hwhole hocc
    have hshort := (ss58ToLibra_len h ha.2).2.2
    rw [hform, replace_self hne]
    rcases hlen with ⟨_, hrun⟩ | ⟨_, _, hlong⟩
    · rw [hrun] at hform
      rw [formAmong_of_mem (hmem.mpr (.inr hform)), hform, ss58Form_address ha]
    · -- a `0x` form is longer than any address
      rw [hform] at hlong
      omega
  · rw [replace_of_absent hocc]
    rcases hlen with ⟨hnot, hrun⟩ | ⟨hin, _, _⟩
    · have hother : run ≠ a.address := by
        intro heq
        have hsame : formAmong cr addresses run = a.address := hrun.trans heq
        exact hocc (hsame ▸ List.infix_rfl)
      rw [hrun, formAmong_of_notMem fun hin => (hmem.mp hin).elim hnot hother]
    · rw [formAmong_of_mem hin, formAmong_of_mem (hmem.mpr (.inl hin))]

theorem formAmong_len_lt (h : cr.Documented) (hvalid : AllValid cr addresses) {n : ℕ}
    (hrun : Text.len run < n) (hn : 66 < n) : Text.len (formAmong cr addresses run) < n := by
  rcases formAmong_len h hvalid run with ⟨_, hsame⟩ | ⟨_, _, hlen⟩
  · rwa [hsame]
  · rwa [hlen]

/-- Either no address was taken for a part of the run, or the text is longer than the run and
than a `0x` form. -/
theorem substituteAll_run (h : cr.Documented) (hvalid : AllValid cr addresses) (run : Text) :
    (Apart cr addresses run ∧ substituteAll addresses run = formAmong cr addresses run) ∨
      (¬ Apart cr addresses run ∧ Text.len run < Text.len (substituteAll addresses run) ∧
        66 < Text.len (substituteAll addresses run)) := by
  induction addresses using List.reverseRecOn with
  | nil =>
    have hsame : formAmong cr [] run = run := formAmong_of_notMem List.not_mem_nil
    exact .inl ⟨fun before a after hsplit => by simp at hsplit, hsame.symm⟩
  | append_singleton addresses a ih =>
    have hinit : AllValid cr addresses := fun b hb => hvalid b (by simp [hb])
    have ha := hvalid a (by simp)
    have hne : a.address ≠ [] := List.ne_nil_of_length_pos (by omega)
    obtain ⟨hlibra, _, hshort⟩ := ss58ToLibra_len h ha.2
    have hlonger : Text.len a.address ≤ Text.len a.libra := by omega
    have hstep : substituteAll (addresses ++ [a]) run =
        (substituteAll addresses run).replace a.address a.libra := by
      rw [substituteAll, List.foldl_append]
      rfl
    rw [hstep, apart_concat]
    rcases ih hinit with ⟨hapart, heq⟩ | ⟨hapart, hlong⟩
    · rw [heq]
      by_cases hwhole : a.address <:+: formAmong cr addresses run →
          formAmong cr addresses run = a.address
      · exact .inl ⟨⟨hapart, hwhole⟩, replace_formAmong h hvalid hwhole⟩
      · -- the address is a part of the run or of its `0x` form
        have hpart := hwhole
        simp only [Classical.not_imp] at hpart
        have hgrow := len_add_le_len_replace hne hlonger hpart.1
        have hless := len_lt_of_infix hpart.1 hpart.2
        refine .inr ⟨fun hnot => hwhole hnot.2, ?_⟩
        rcases formAmong_len h hinit run with ⟨_, hrun⟩ | ⟨_, _, hlen⟩
        · rw [hrun] at hgrow hless ⊢
          omega
        · omega
    · have hgrow := len_le_len_replace hne hlonger (substituteAll addresses run)
      exact .inr ⟨fun hnot => hapart hnot.1, by omega⟩

theorem substituteAll_eq_formAmong_iff (h : cr.Documented) (hvalid : AllValid cr addresses) :
    substituteAll addresses run = formAmong cr addresses run ↔ Apart cr addresses run := by
  rcases substituteAll_run h hvalid run with ⟨hapart, heq⟩ | ⟨hapart, hrun, hlong⟩
  · exact iff_of_true heq hapart
  · have hlt := formAmong_len_lt h hvalid hrun hlong
    exact iff_of_false (fun heq => hlt.ne (congrArg Text.len heq.symm)) hapart

theorem formAmong_len_le (h : cr.Documented) (hvalid : AllValid cr addresses) :
    Text.len (formAmong cr addresses run) ≤ Text.len (substituteAll addresses run) := by
  rcases substituteAll_run h hvalid run with ⟨_, heq⟩ | ⟨_, hrun, hlong⟩
  · rw [heq]
  · exact (formAmong_len_lt h hvalid hrun hlong).le

theorem allValid_foundIn : AllValid cr (foundIn cr source) := fun _ ha =>
  ⟨(mem_foundIn ha).1.2, (mem_foundIn ha).2⟩

/-- The condition is about the addresses and the runs of the source only. -/
theorem rewritesRuns_iff (h : cr.Documented) (source : Text) :
    RewritesRuns cr source ↔ NoneInside cr source := by
  have hchars : ∀ a ∈ foundIn cr source, a.address ≠ [] ∧ ∀ c ∈ a.address, isBase58Char c := by
    intro a ha
    obtain ⟨⟨hrun, hlen⟩, _⟩ := mem_foundIn ha
    exact ⟨List.ne_nil_of_length_pos (by omega), mem_tokens_isToken hrun⟩
  have htext : (replaceSs58Addresses cr source {}).1 =
      mapTokens isBase58Char (fun run => substituteAll (foundIn cr source) run) source := by
    have hmap := substituteAll_mapTokens hchars id source
    rw [mapTokens_id] at hmap
    rw [replaceSs58Addresses, (replaceAddresses_eq {}).1]
    exact hmap
  rw [RewritesRuns, htext]
  rw [mapTokens_eq_iff_of_len]
  · refine forall₂_congr fun run hmem => ?_
    rw [← formAmong_foundIn hmem]
    exact substituteAll_eq_formAmong_iff h allValid_foundIn
  · intro run hmem
    rw [← formAmong_foundIn hmem]
    exact formAmong_len_le h allValid_foundIn

theorem rewritesRuns_iff_fourAddresses :
    RewritesRuns polkaCrates fourAddresses ↔ NoneInside polkaCrates fourAddresses :=
  rewritesRuns_iff polkaCrates_documented fourAddresses

/-- An address, and a longer run that holds it. -/
theorem longer_run_rewritten : ¬ RewritesRuns polkaCrates
    ("G7UkJAutjbQyZGRiP8z5bBSBPBJ66JbTKAkFDq3cANwENyX " ++
      "7G7UkJAutjbQyZGRiP8z5bBSBPBJ66JbTKAkFDq3cANwENyX").toList := by
  unfold RewritesRuns
  decide +kernel

end MoveTools.Compiler.Ss58
