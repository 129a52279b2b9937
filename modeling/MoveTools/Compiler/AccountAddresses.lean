import MoveTools.Compiler.Accepted.Libra
import MoveTools.Compiler.Accepted.DFinance
import MoveTools.Compiler.Accepted.Polkadot

namespace MoveTools.Compiler.AccountAddresses
open Regex AddressLayers

variable {cr : AddressCrates} {length : ℕ}

/-- An address type of `length` bytes, with addresses as their numbers. -/
def hexCrate (length : ℕ) : LibraAddresses.Crate where
  Address := ℕ
  fromHexLiteral s :=
    if "0x".toList.isPrefixOf s ∧ (s.drop 2).all Hex.isHex ∧ (s.drop 2).length ≤ 2 * length then
      some (Hex.value (s.drop 2))
    else none
  display := Hex.ofNat (2 * length)

theorem hexCrate_fromHexLiteral {length : ℕ} {ds : Text} {a : ℕ}
    (h : (hexCrate length).fromHexLiteral ("0x".toList ++ ds) = some a) :
    (∀ c ∈ ds, Hex.isHex c) ∧ ds.length ≤ 2 * length ∧ Hex.value ds = a := by
  simp only [hexCrate, Option.ite_none_right_eq_some, Option.some.injEq] at h
  exact ⟨List.all_eq_true.mp h.1.2.1, h.1.2.2, h.2⟩

theorem hexCrate_sized (length : ℕ) : Sized (hexCrate length) length where
  accepts s := by
    simp only [hexCrate, Option.isSome_ite, List.isPrefixOf_iff_prefix, List.all_eq_true]
    constructor
    · rintro ⟨⟨ds, rfl⟩, hds, hlen⟩
      exact ⟨ds, rfl, hds, hlen⟩
    · rintro ⟨ds, rfl, hds, hlen⟩
      exact ⟨List.prefix_append _ _, hds, hlen⟩
  same ha hb hvalue := by
    have h1 := (hexCrate_fromHexLiteral ha).2.2
    have h2 := (hexCrate_fromHexLiteral hb).2.2
    exact h1.symm.trans (hvalue.trans h2)
  display ha := by
    obtain ⟨hds, hlen, rfl⟩ := hexCrate_fromHexLiteral ha
    have hlt := (Hex.value_lt hds).trans_le (Nat.pow_le_pow_right (by decide) hlen)
    exact ⟨Hex.ofNat_length _ _, fun c hc => Hex.isLower_ofNat hc, Hex.value_ofNat hlt⟩

def crates (length : ℕ) : AddressCrates where
  libra := hexCrate 16
  account := hexCrate length
  bech32 := Bech32.walletCrates
  ss58 := Ss58.polkaCrates

theorem crates_documented (length : ℕ) : Documented (crates length) length where
  libra := hexCrate_sized 16
  account := hexCrate_sized length
  bech32_upper := rfl
  ss58_upper := rfl
  decode_chars := by
    intro s x h
    simp only [crates, Bech32.walletCrates, Option.ite_none_right_eq_some] at h
    obtain ⟨rfl, -⟩ := h
    exact ⟨"wallet".toList, "me0cdn52672y7feddy7tgcj6j4dkzq2su745vh".toList, rfl,
      by decide, by decide, List.all_eq_true.mp (by decide), by decide,
      List.all_eq_true.mp (by decide)⟩
  convertBits_bytes := by
    intro data bytes h
    simp only [crates, Bech32.walletCrates, Option.ite_none_right_eq_some, Option.some.injEq] at h
    obtain ⟨-, rfl⟩ := h
    decide
  fromBase58_chars := by
    intro s bytes h
    simp only [crates, Ss58.polkaCrates, Option.ite_none_right_eq_some] at h
    obtain ⟨rfl, -⟩ := h
    exact List.all_eq_true.mp (by decide)

end MoveTools.Compiler.AccountAddresses
