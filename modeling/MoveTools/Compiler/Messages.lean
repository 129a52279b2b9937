import MoveTools.Compiler.Senders
import MoveTools.Library.Runs

namespace MoveTools.Compiler
open Text

def isLiteralChar (c : Char) : Bool := Hex.isHex c || c == 'x'

namespace FileOffsetMap

/-- The spelling that a literal replaced, by a list of replacements. Of several spellings the
last one counts. -/
def spelling : List (Text × Text) → Text → Text
  | [], run => run
  | x :: later, run =>
    if later.any (·.2 == run) then spelling later run
    else if x.2 == run then x.1
    else run

/-- When the turn of a replacement comes, after the later ones, it stands in this run as a whole,
and for the first time, or not at all. -/
def Apart (replacements : List (Text × Text)) (run : Text) : Prop :=
  ∀ before x later, replacements = before ++ x :: later →
    x.2 <:+: spelling later run → x.2 = run ∧ ¬ later.any (·.2 == run)

variable (m : FileOffsetMap)

/-- Every literal that is a recorded replacement is turned into the spelling it replaced, and
nothing else is changed. -/
def TranslatesLiterals (msg : Text) : Prop :=
  m.translateMessage msg = mapTokens isLiteralChar (spelling m.addressReplacements) msg

def AllApart (msg : Text) : Prop :=
  ∀ run ∈ tokens isLiteralChar msg, Apart m.addressReplacements run

/-- No replacement is a part of another one, or stands in a text that holds a spelling unless it
stands there beside the spelling. -/
structure Inert : Prop where
  whole : ∀ x ∈ m.addressReplacements, ∀ y ∈ m.addressReplacements, x.2 <:+: y.2 → x.2 = y.2
  avoids : ∀ x ∈ m.addressReplacements, ∀ y ∈ m.addressReplacements, Avoids x.2 y.1

def RecordsLiterals : Prop :=
  ∀ x ∈ m.addressReplacements, ∃ digits, x.2 = "0x".toList ++ digits ∧ ∀ c ∈ digits, Hex.isHex c

variable {m} {replacements : List (Text × Text)} {run msg : Text}

theorem isLiteralChar_of_isHex {c : Char} (h : Hex.isHex c) : isLiteralChar c := by
  rw [isLiteralChar, h]
  rfl

theorem RecordsLiterals.chars (h : m.RecordsLiterals) {x : Text × Text}
    (hx : x ∈ m.addressReplacements) : x.2 ≠ [] ∧ ∀ c ∈ x.2, isLiteralChar c := by
  obtain ⟨digits, heq, hdigits⟩ := h x hx
  rw [heq]
  refine ⟨by simp, fun c hc => ?_⟩
  rcases List.mem_append.mp hc with h0x | hdigit
  · exact List.all_eq_true.mp (show "0x".toList.all isLiteralChar by decide) c h0x
  · exact isLiteralChar_of_isHex (hdigits c hdigit)

def translateBy (replacements : List (Text × Text)) (msg : Text) : Text :=
  replacements.foldr (fun x msg => msg.replace x.2 x.1) msg

theorem translateMessage_eq : m.translateMessage msg = translateBy m.addressReplacements msg := rfl

theorem translateBy_cons (x : Text × Text) (later : List (Text × Text)) (msg : Text) :
    translateBy (x :: later) msg = (translateBy later msg).replace x.2 x.1 := rfl

theorem spelling_of_unrecorded (h : ¬ replacements.any (·.2 == run)) :
    spelling replacements run = run := by
  cases replacements with
  | nil => rfl
  | cons x later =>
    simp only [List.any_cons, Bool.or_eq_true, not_or] at h
    rw [spelling, if_neg h.2, if_neg h.1]

theorem spelling_of_recorded (h : replacements.any (·.2 == run)) :
    ∃ y ∈ replacements, spelling replacements run = y.1 := by
  induction replacements with
  | nil => cases h
  | cons x later ih =>
    by_cases hlater : later.any (·.2 == run)
    · obtain ⟨y, hy, heq⟩ := ih hlater
      refine ⟨y, List.mem_cons_of_mem _ hy, ?_⟩
      rw [spelling, if_pos hlater, heq]
    · rw [List.any_cons, Bool.or_eq_true] at h
      refine ⟨x, List.mem_cons_self, ?_⟩
      rw [spelling, if_neg hlater, if_pos (h.resolve_right hlater)]

/-- A run is translated by itself. -/
theorem translate_mapTokens {replacements : List (Text × Text)}
    (h : ∀ x ∈ replacements, x.2 ≠ [] ∧ ∀ c ∈ x.2, isLiteralChar c) (msg : Text) :
    translateBy replacements msg =
      mapTokens isLiteralChar (translateBy replacements) msg := by
  induction replacements with
  | nil => exact (mapTokens_id msg).symm
  | cons x later ih =>
    obtain ⟨⟨hne, hchars⟩, hlater⟩ := List.forall_mem_cons.mp h
    rw [translateBy_cons, ih hlater, replace_mapTokens hne x.1 hchars]
    rfl

theorem Apart.tail {x : Text × Text} {later : List (Text × Text)} (h : Apart (x :: later) run) :
    Apart later run := fun before y after hsplit =>
  h (x :: before) y after (congrArg (x :: ·) hsplit)

theorem translate_run (hne : ∀ x ∈ replacements, x.2 ≠ []) (h : Apart replacements run) :
    translateBy replacements run = spelling replacements run := by
  induction replacements with
  | nil => rfl
  | cons x later ih =>
    obtain ⟨hx, hlater⟩ := List.forall_mem_cons.mp hne
    rw [translateBy_cons, ih hlater h.tail]
    by_cases hocc : x.2 <:+: spelling later run
    · obtain ⟨heq, hfirst⟩ := h [] x later rfl hocc
      rw [spelling_of_unrecorded hfirst, spelling, if_neg hfirst, if_pos (beq_iff_eq.mpr heq), heq,
        replace_self (heq ▸ hx)]
    · rw [replace_of_absent hocc, spelling]
      by_cases hrecorded : later.any (·.2 == run)
      · rw [if_pos hrecorded]
      · have hother : ¬ (x.2 == run) = true := by
          rw [beq_iff_eq]
          rintro rfl
          rw [spelling_of_unrecorded hrecorded] at hocc
          exact hocc List.infix_rfl
        rw [spelling_of_unrecorded hrecorded, if_neg hrecorded, if_neg hother]

theorem translatesLiterals_of_allApart (h : m.RecordsLiterals) (hapart : m.AllApart msg) :
    m.TranslatesLiterals msg := by
  have hrun := translate_mapTokens (fun x hx => h.chars hx) msg
  rw [TranslatesLiterals, translateMessage_eq, hrun]
  exact mapTokens_congr fun run hmem => translate_run (fun x hx => (h.chars hx).1) (hapart run hmem)

theorem not_infix_translate (hne : ∀ x ∈ replacements, x.2 ≠ [])
    (havoids : ∀ x ∈ replacements, ∀ y ∈ replacements, Avoids x.2 y.1) {x : Text × Text}
    (hx : x ∈ replacements) :
    ¬ x.2 <:+: translateBy replacements msg := by
  induction replacements with
  | nil => cases hx
  | cons y later ih =>
    obtain ⟨hy, hlater⟩ := List.forall_mem_cons.mp hne
    rw [translateBy_cons]
    rcases List.mem_cons.mp hx with rfl | hmem
    · exact not_infix_replace hy (havoids x hx x hx) _
    · intro hocc
      refine ih hlater (fun z hz w hw => havoids z (List.mem_cons_of_mem _ hz) w
        (List.mem_cons_of_mem _ hw)) hmem ?_
      exact infix_of_infix_replace hy (havoids x hx y List.mem_cons_self) hocc

theorem Inert.apart (h : m.Inert) (hne : ∀ x ∈ m.addressReplacements, x.2 ≠ [])
    (hrun : ¬ m.addressReplacements.any (·.2 == run) →
      ∀ x ∈ m.addressReplacements, ¬ x.2 <:+: run) : Apart m.addressReplacements run := by
  intro before x later hsplit hocc
  have hx : x ∈ m.addressReplacements := by simp [hsplit]
  have hmem : ∀ y ∈ later, y ∈ m.addressReplacements := fun y hy => by simp [hsplit, hy]
  by_cases hlater : later.any (·.2 == run)
  · -- a spelling stands in the place of the run
    obtain ⟨y, hy, heq⟩ := spelling_of_recorded hlater
    have hspelling := h.avoids x hx y (hmem y hy) [] []
    rw [heq] at hocc
    simp only [List.nil_append, List.append_nil, or_self] at hspelling
    exact absurd (List.infix_nil.mp (hspelling hocc)) (hne x hx)
  · rw [spelling_of_unrecorded hlater] at hocc
    refine ⟨?_, hlater⟩
    by_contra hother
    by_cases hrecorded : m.addressReplacements.any (·.2 == run)
    · obtain ⟨y, hy, heq⟩ := List.any_eq_true.mp hrecorded
      obtain rfl := beq_iff_eq.mp heq
      exact hother (h.whole x hx y hy hocc)
    · exact hrun hrecorded x hx hocc

theorem Inert.allApart (h : m.Inert) (hrec : m.RecordsLiterals) (ht : m.TranslatesLiterals msg) :
    m.AllApart msg := by
  have hne : ∀ x ∈ m.addressReplacements, x.2 ≠ [] := fun x hx => (hrec.chars hx).1
  refine fun run hmem => h.apart hne fun hunrecorded x hx hocc => ?_
  have hleft : ¬ x.2 <:+: translateBy m.addressReplacements msg :=
    not_infix_translate hne h.avoids hx
  have hsame : spelling m.addressReplacements run = run := spelling_of_unrecorded hunrecorded
  have hstays : run <:+: mapTokens isLiteralChar (spelling m.addressReplacements) msg := by
    have := infix_mapTokens (spelling m.addressReplacements) hmem
    rwa [hsame] at this
  rw [← ht, translateMessage_eq] at hstays
  exact hleft (hocc.trans hstays)

open AddressLayers AccountAddresses

/-- The replacements of a map are literals. -/
theorem RecordsLiterals.insert (h : m.RecordsLiterals) {original digits : Text} (stop : ℕ)
    (hdigits : ∀ c ∈ digits, Hex.isHex c) :
    (m.insertAddressLayer stop original ("0x".toList ++ digits)).RecordsLiterals := by
  intro x hx
  rcases List.mem_append.mp hx with hx | hx
  · exact h x hx
  · obtain rfl := List.mem_singleton.mp hx
    exact ⟨digits, rfl, hdigits⟩

theorem replaceAddresses_recordsLiterals {toLibra : Text → Option Text}
    (hlibra : ∀ {a r}, toLibra a = some r →
      ∃ digits, r = "0x".toList ++ digits ∧ ∀ c ∈ digits, Hex.isHex c)
    (items : List Regex.Capture) (source : Text) (h : m.RecordsLiterals) :
    (replaceAddresses toLibra items source m).2.RecordsLiterals := by
  induction items generalizing source m with
  | nil => exact h
  | cons item items ih =>
    have hstep : replaceAddresses toLibra (item :: items) source m =
        replaceAddresses toLibra items (step toLibra (source, m) item).1
          (step toLibra (source, m) item).2 := rfl
    rw [hstep]
    refine ih _ ?_
    rw [step_eq]
    cases ha : asFound toLibra item with
    | none => exact h
    | some a =>
      obtain ⟨digits, hdigits, hhex⟩ := hlibra (asFound_eq_some ha).2.1
      have hinsert : (m.insertAddressLayer a.stop a.address
          ("0x".toList ++ digits)).RecordsLiterals := h.insert a.stop hhex
      rwa [← hdigits] at hinsert

theorem nextAddress_recordsLiterals {cr : LibraAddresses.Crate} {length : ℕ} (h : Sized cr length)
    {x y : Text × FileOffsetMap} (hnext : LibraAddresses.nextAddress cr x = some (some y))
    (hx : x.2.RecordsLiterals) : y.2.RecordsLiterals := by
  unfold LibraAddresses.nextAddress at hnext
  split at hnext
  · cases hnext
  · rename_i mat _
    obtain ⟨address, haddress, heq⟩ := Option.bind_eq_some_iff.mp hnext
    obtain rfl := Option.some.inj (Option.some.inj heq)
    obtain ⟨ds, hds, _, _⟩ := h.digits haddress
    rw [hds] at haddress
    have hdigits : ∀ c ∈ "00000000".toList ++ cr.display address, Hex.isHex c := by
      intro c hc
      rcases List.mem_append.mp hc with hc | hc
      · exact List.all_eq_true.mp (show "00000000".toList.all Hex.isHex by decide) c hc
      · exact Hex.isHex_of_isLower ((h.display haddress).2.1 c hc)
    exact hx.insert _ hdigits

theorem replaceSenderPlaceholder_recordsLiterals {fuel : ℕ} {s sender : Text}
    {x : Text × FileOffsetMap} (h : Parser.replaceSenderPlaceholder fuel s sender m = some x)
    (hm : m.RecordsLiterals) : x.2.RecordsLiterals := by
  have hnext : ∀ {template : Text} {x y : Text × FileOffsetMap},
      Parser.nextPlaceholder template sender x = some (some y) → x.2.RecordsLiterals →
        y.2.RecordsLiterals := by
    intro template x y hnext hx
    obtain ⟨z, _, rfl⟩ := Option.map_eq_some_iff.mp (Option.some.inj hnext)
    exact hx
  unfold Parser.replaceSenderPlaceholder at h
  split at h
  · apply Runs.foldlM_preserves (I := fun y => y.2.RecordsLiterals) (fun _ hy hx => ?_) h hm
    exact Loop.whileLet_preserves (I := fun y => y.2.RecordsLiterals) hnext hy hx
  · cases h

theorem dialect_recordsLiterals {cr : AddressCrates} {length : ℕ} (h : Documented cr length)
    {fuel : ℕ} {name : DialectName} {source : Text} {x : Text × FileOffsetMap}
    (hx : (getDialect cr fuel name).replaceAddresses source m = some x) (hm : m.RecordsLiterals) :
    x.2.RecordsLiterals := by
  cases name with
  | Libra =>
    exact Loop.whileLet_preserves (I := fun y => y.2.RecordsLiterals)
      (nextAddress_recordsLiterals h.libra) hx hm
  | DFinance =>
    cases hx
    refine replaceAddresses_recordsLiterals (fun ha => ?_) _ _ hm
    obtain ⟨bytes, rfl⟩ := Bech32.bech32IntoLibra_eq_some ha
    rw [h.bech32_upper]
    exact ⟨_, rfl, fun c hc => Hex.isHex_encodeUpper ((List.dropWhile_suffix _).subset hc)⟩
  | Polkadot =>
    cases hx
    refine replaceAddresses_recordsLiterals (fun ha => ?_) _ _ hm
    obtain ⟨_, digits, rfl, _, hdigits⟩ := ss58_base58 h ha
    exact ⟨digits, rfl, hdigits⟩

theorem normalizeSourceText_recordsLiterals {cr : AddressCrates} {length : ℕ}
    (h : Documented cr length) {fuel loopFuel : ℕ} {name : DialectName} {source text : Text}
    {sender : Option ProvidedAccountAddress}
    (hm : Parser.normalizeSourceText fuel (getDialect cr loopFuel name) source sender =
      some (text, m)) : m.RecordsLiterals := by
  have hlines : (LineEndings.normalize source).2.RecordsLiterals := by
    rw [LineEndings.normalize_eq]
    exact List.forall_mem_nil _
  cases sender with
  | none => exact dialect_recordsLiterals h hm hlines
  | some sender =>
    obtain ⟨x, hx, hdialect⟩ := Option.bind_eq_some_iff.mp hm
    exact dialect_recordsLiterals h hdialect (replaceSenderPlaceholder_recordsLiterals hx hlines)

/-- Where the spellings are inert, the condition is exact. -/
theorem translatesLiterals_iff {cr : AddressCrates} {length : ℕ} (h : Documented cr length)
    {fuel loopFuel : ℕ} {name : DialectName} {source text : Text}
    {sender : Option ProvidedAccountAddress}
    (hm : Parser.normalizeSourceText fuel (getDialect cr loopFuel name) source sender =
      some (text, m)) (msg : Text) :
    (m.AllApart msg → m.TranslatesLiterals msg) ∧
      (m.Inert → (m.TranslatesLiterals msg ↔ m.AllApart msg)) := by
  have hrec := normalizeSourceText_recordsLiterals h hm
  exact ⟨translatesLiterals_of_allApart hrec,
    fun hinert => ⟨hinert.allApart hrec, translatesLiterals_of_allApart hrec⟩⟩

def oneSource : Text := "use wallet1qqqqqqqqqqqqqqqqqqqqqqqqqqqqqqqprrf87d::Event;".toList

def oneMap : FileOffsetMap where
  layers := [⟨49, 42⟩]
  addressReplacements :=
    [("wallet1qqqqqqqqqqqqqqqqqqqqqqqqqqqqqqqprrf87d".toList, "0x1".toList)]

theorem normalize_oneSource :
    Parser.normalizeSourceText 1 (getDialect lowerCrates 1 .DFinance) oneSource none =
      some ("use 0x1::Event;".toList, oneMap) := by
  decide +kernel

theorem translatesLiterals_iff_one :
    (oneMap.AllApart "Unbound module '0x1::Event'".toList →
      oneMap.TranslatesLiterals "Unbound module '0x1::Event'".toList) ∧
    (oneMap.Inert → (oneMap.TranslatesLiterals "Unbound module '0x1::Event'".toList ↔
      oneMap.AllApart "Unbound module '0x1::Event'".toList)) :=
  translatesLiterals_iff lowerCrates_documented normalize_oneSource _

/-- Another address begins with the recorded literal. -/
theorem longer_literal_translated : ∃ text m,
    Parser.normalizeSourceText 1 (getDialect lowerCrates 1 .DFinance) oneSource none =
      some (text, m) ∧ ¬ m.TranslatesLiterals "Unbound module '0x1A::Event'".toList := by
  refine ⟨_, _, normalize_oneSource, ?_⟩
  unfold TranslatesLiterals
  decide +kernel

end FileOffsetMap
end MoveTools.Compiler
