import MoveTools.Library.Tokens
import MoveTools.Compiler.Bech32

namespace MoveTools.Compiler.Bech32
open Regex AddressLayers Text

def isTokenChar (c : Char) : Bool := c.isAlphanum || c == '_'

variable (cr : Crates)

def rewritten (token : Text) : Text := (bech32IntoLibra cr token).getD token

/-- Every token that decodes is replaced by its `0x` form, and nothing else is changed. -/
def RecognizesTokens (source : Text) : Prop :=
  (replaceBech32Addresses cr source {}).1 = mapTokens isTokenChar (rewritten cr) source

def foundIn (source : Text) : List Found := found (bech32IntoLibra cr) (items source)

def rewrittenAmong (addresses : List Found) (token : Text) : Text :=
  if (addresses.map Found.address).contains token then rewritten cr token else token

/-- When the turn of an address comes, and those before it have been replaced where they are
tokens, it stands in the text as a whole token only. -/
def NoneInside (source : Text) : Prop :=
  ∀ before a after, foundIn cr source = before ++ a :: after →
    OnlyWhole isTokenChar a.address (mapTokens isTokenChar (rewrittenAmong cr before) source)

/-- The pattern finds every token that decodes, or this token is its own `0x` form. -/
def AllFound (source : Text) : Prop :=
  ∀ token ∈ tokens isTokenChar source, ∀ libra, bech32IntoLibra cr token = some libra →
    token ∈ (foundIn cr source).map Found.address ∨ libra = token

variable {cr : Crates} {source : Text}

theorem rewrittenAmong_of_mem {addresses : List Found} {token : Text}
    (h : token ∈ addresses.map Found.address) :
    rewrittenAmong cr addresses token = rewritten cr token :=
  if_pos (List.contains_iff_mem.mpr h)

theorem rewrittenAmong_of_notMem {addresses : List Found} {token : Text}
    (h : token ∉ addresses.map Found.address) : rewrittenAmong cr addresses token = token :=
  if_neg fun hmem => h (List.contains_iff_mem.mp hmem)

theorem rewrittenAmong_nil : rewrittenAmong cr [] = id :=
  funext fun _ => rewrittenAmong_of_notMem List.not_mem_nil

theorem isTokenChar_of_isHex {c : Char} (h : Hex.isHex c) : isTokenChar c := by
  rw [isTokenChar, Hex.isAlphanum_of_isHex h, Bool.true_or]

theorem prefix_libra {a r : Text} (ha : bech32IntoLibra cr a = some r) : "0x".toList <+: r := by
  obtain ⟨bytes, rfl⟩ := bech32IntoLibra_eq_some ha
  exact List.prefix_append _ _

theorem address_ne_nil (h : cr.Documented) {a r : Text} (ha : bech32IntoLibra cr a = some r) :
    a ≠ [] := by
  simp only [bech32IntoLibra, Option.bind_eq_bind, Option.bind_eq_some_iff] at ha
  obtain ⟨⟨hrp, data⟩, hdecode, _⟩ := ha
  have hlen := h.decode_len hdecode
  rintro rfl
  rw [len_nil] at hlen
  omega

theorem mem_foundIn {a : Found} (h : a ∈ foundIn cr source) :
    ¬ "0x".toList <+: a.address ∧ bech32IntoLibra cr a.address = some a.libra := by
  obtain ⟨item, _, hitem⟩ := List.mem_filterMap.mp h
  obtain ⟨_, hlibra, h0x⟩ := asFound_eq_some hitem
  exact ⟨h0x, hlibra⟩

variable (hhex : ∀ bytes, ∀ c ∈ cr.encodeUpper bytes, Hex.isHex c)
include hhex

theorem rewritten_keepsTokens : KeepsTokens isTokenChar (rewritten cr) := by
  intro w hw c hc
  cases hr : bech32IntoLibra cr w with
  | none =>
    rw [rewritten, hr] at hc
    exact hw c hc
  | some r =>
    obtain ⟨bytes, rfl⟩ := bech32IntoLibra_eq_some hr
    rw [rewritten, hr] at hc
    rcases List.mem_append.mp hc with h0x | hdigit
    · exact List.all_eq_true.mp (show "0x".toList.all isTokenChar by decide) c h0x
    · exact isTokenChar_of_isHex (hhex _ _ ((List.dropWhile_suffix _).subset hdigit))

theorem rewrittenAmong_keepsTokens (addresses : List Found) :
    KeepsTokens isTokenChar (rewrittenAmong cr addresses) := by
  intro w hw
  by_cases hmem : w ∈ addresses.map Found.address
  · rw [rewrittenAmong_of_mem hmem]
    exact rewritten_keepsTokens hhex w hw
  · rw [rewrittenAmong_of_notMem hmem]
    exact hw

omit hhex

/-- Replacing an address where those before it have been replaced. Their forms start with `0x`
and the address does not, so none of them is taken for it. -/
theorem rewrittenAmong_concat {before : List Found} {a : Found} (h0x : ¬ "0x".toList <+: a.address)
    (ha : bech32IntoLibra cr a.address = some a.libra)
    (hbefore : ∀ b ∈ before, bech32IntoLibra cr b.address = some b.libra) (token : Text) :
    (if rewrittenAmong cr before token = a.address then a.libra
      else rewrittenAmong cr before token) = rewrittenAmong cr (before ++ [a]) token := by
  have hmem : token ∈ (before ++ [a]).map Found.address ↔
      token ∈ before.map Found.address ∨ token = a.address := by
    simp [List.mem_map]
  by_cases hb : token ∈ before.map Found.address
  · obtain ⟨b, hb', rfl⟩ := List.mem_map.mp hb
    have hform : rewrittenAmong cr before b.address = b.libra := by
      rw [rewrittenAmong_of_mem hb, rewritten, hbefore b hb']
      rfl
    have hne : b.libra ≠ a.address := fun heq => h0x (heq ▸ prefix_libra (hbefore b hb'))
    rw [hform, if_neg hne, rewrittenAmong_of_mem (hmem.mpr (.inl hb)), rewritten, hbefore b hb']
    rfl
  · rw [rewrittenAmong_of_notMem hb]
    by_cases heq : token = a.address
    · subst heq
      rw [if_pos rfl, rewrittenAmong_of_mem (hmem.mpr (.inr rfl)), rewritten, ha]
      rfl
    · have hnot : token ∉ (before ++ [a]).map Found.address := fun h => (hmem.mp h).elim hb heq
      rw [if_neg heq, rewrittenAmong_of_notMem hnot]

/-- The loop over the addresses, from one of them on. -/
theorem substituteAll_from (h : cr.Documented)
    (hhex : ∀ bytes, ∀ c ∈ cr.encodeUpper bytes, Hex.isHex c) (hnone : NoneInside cr source)
    (before after : List Found) (hsplit : foundIn cr source = before ++ after) :
    substituteAll after (mapTokens isTokenChar (rewrittenAmong cr before) source) =
      mapTokens isTokenChar (rewrittenAmong cr (foundIn cr source)) source := by
  induction after generalizing before with
  | nil => rw [hsplit, List.append_nil, substituteAll, List.foldl_nil]
  | cons a after ih =>
    have hfound : ∀ b ∈ before ++ a :: after, ¬ "0x".toList <+: b.address ∧
        bech32IntoLibra cr b.address = some b.libra := fun b hb => mem_foundIn (hsplit ▸ hb)
    obtain ⟨h0x, ha⟩ := hfound a (by simp)
    have hstep : (mapTokens isTokenChar (rewrittenAmong cr before) source).replace a.address a.libra =
        mapTokens isTokenChar (rewrittenAmong cr (before ++ [a])) source := by
      rw [replace_of_onlyWhole (address_ne_nil h ha) a.libra (hnone before a after hsplit),
        mapTokens_mapTokens (rewrittenAmong_keepsTokens hhex before)]
      exact mapTokens_congr fun token _ =>
        rewrittenAmong_concat h0x ha (fun b hb => (hfound b (by simp [hb])).2) token
    rw [substituteAll, List.foldl_cons, hstep]
    exact ih (before ++ [a]) (by simpa using hsplit)

theorem replaceBech32Addresses_of_noneInside (h : cr.Documented)
    (hhex : ∀ bytes, ∀ c ∈ cr.encodeUpper bytes, Hex.isHex c) (hnone : NoneInside cr source)
    (map : FileOffsetMap) : (replaceBech32Addresses cr source map).1 =
      mapTokens isTokenChar (rewrittenAmong cr (foundIn cr source)) source := by
  have hloop := substituteAll_from h hhex hnone [] _ rfl
  rw [rewrittenAmong_nil, mapTokens_id] at hloop
  rw [replaceBech32Addresses, (replaceAddresses_eq map).1]
  exact hloop

theorem rewrittenAmong_eq_rewritten_iff {addresses : List Found} {token : Text} :
    rewrittenAmong cr addresses token = rewritten cr token ↔
      ∀ libra, bech32IntoLibra cr token = some libra →
        token ∈ addresses.map Found.address ∨ libra = token := by
  by_cases hmem : token ∈ addresses.map Found.address
  · simp [rewrittenAmong_of_mem hmem, hmem]
  · rw [rewrittenAmong_of_notMem hmem, rewritten]
    cases bech32IntoLibra cr token with
    | none => simp
    | some libra => simp [hmem, eq_comm]

/-- The only addresses, without white space or `=` before them, are not found. -/
theorem unchanged_of_unspaced (h : ∀ c ∈ source, ¬ (isWhiteSpace c || c == '='))
    (map : FileOffsetMap) : replaceBech32Addresses cr source map = (source, map) := by
  have hnone : findAll BECH32_REGEX source.length source = [] :=
    findAll_none (search_none (Nat.le_refl 1) h) _
  rw [replaceBech32Addresses, items, hnone]
  rfl

/-- An address that is an argument of a call. -/
theorem argument_unchanged : ¬ RecognizesTokens walletCrates
    "f(wallet1me0cdn52672y7feddy7tgcj6j4dkzq2su745vh)".toList := by
  have hunspaced : "f(wallet1me0cdn52672y7feddy7tgcj6j4dkzq2su745vh)".toList.all
      fun c => !(isWhiteSpace c || c == '=') := by decide
  have hsame : replaceBech32Addresses walletCrates
      "f(wallet1me0cdn52672y7feddy7tgcj6j4dkzq2su745vh)".toList {} = _ :=
    unchanged_of_unspaced (fun c hc => by simpa using List.all_eq_true.mp hunspaced c hc) {}
  rw [RecognizesTokens, hsame]
  decide +kernel

theorem noneInside_of_one {a : Found} (hfound : foundIn cr source = [a])
    (h : OnlyWhole isTokenChar a.address source) : NoneInside cr source := by
  intro before b after hsplit
  rw [hfound] at hsplit
  cases before with
  | nil =>
    obtain ⟨rfl, _⟩ := List.cons.inj hsplit
    rwa [rewrittenAmong_nil, mapTokens_id]
  | cons c before => simp at hsplit

/-- Where no address that is found stands inside something longer, the addresses that are
recognised are those the pattern finds. -/
theorem recognizesTokens_iff (h : cr.Documented)
    (hhex : ∀ bytes, ∀ c ∈ cr.encodeUpper bytes, Hex.isHex c) (hnone : NoneInside cr source) :
    RecognizesTokens cr source ↔ AllFound cr source := by
  rw [RecognizesTokens, replaceBech32Addresses_of_noneInside h hhex hnone,
    mapTokens_eq_iff (rewrittenAmong_keepsTokens hhex _) (rewritten_keepsTokens hhex)]
  exact forall₂_congr fun token _ => rewrittenAmong_eq_rewritten_iff

theorem recognizesTokens_iff_assigned :
    RecognizesTokens walletCrates "x = wallet1me0cdn52672y7feddy7tgcj6j4dkzq2su745vh;".toList ↔
      AllFound walletCrates "x = wallet1me0cdn52672y7feddy7tgcj6j4dkzq2su745vh;".toList := by
  have hfound : foundIn walletCrates "x = wallet1me0cdn52672y7feddy7tgcj6j4dkzq2su745vh;".toList =
      [⟨49, "wallet1me0cdn52672y7feddy7tgcj6j4dkzq2su745vh".toList,
        "0xDE5F86CE8AD7944F272D693CB4625A955B610150".toList⟩] := by decide +kernel
  have htokens : tokens isTokenChar "x = wallet1me0cdn52672y7feddy7tgcj6j4dkzq2su745vh;".toList =
      ["x".toList, [], [], "wallet1me0cdn52672y7feddy7tgcj6j4dkzq2su745vh".toList, []] := by decide
  have hnone := noneInside_of_one hfound fun _ => ⟨List.all_eq_true.mp
    (show "wallet1me0cdn52672y7feddy7tgcj6j4dkzq2su745vh".toList.all isTokenChar by decide), by
      rw [htokens]
      decide⟩
  exact recognizesTokens_iff walletCrates_documented (fun _ _ => Hex.isHex_encodeUpper) hnone

end MoveTools.Compiler.Bech32
