import MoveTools.Compiler.AccountAddresses
import MoveTools.Compiler.Bech32Codec
import MoveTools.Compiler.Templates

namespace MoveTools.Compiler.AccountAddresses
open Compiler.Parser Text

variable {cr : AddressCrates} {length : ℕ} {sender : Text}

def lowerCrates : AddressCrates where
  libra := hexCrate 16
  account := hexCrate 20
  bech32 := {
    decode s := (Bech32Code.decode s).filter fun x => x.1.length ≤ 83
    convertBits data f t _ :=
      if data.all (· < 2 ^ f) then some (Regroup.regroup f t data) else none
    encodeUpper := Hex.encodeUpper }
  ss58 := Ss58.polkaCrates

theorem isDataChar_charOf : ∀ d < 32, Bech32.isDataChar (Bech32Code.charOf d) := by decide

theorem decode_parts {s : Text} {x : Text × List ℕ} (h : Bech32Code.decode s = some x) :
    ∃ chars : Text, s = x.1 ++ '1' :: chars ∧ 1 ≤ x.1.length ∧ (∀ c ∈ x.1, Bech32.isHrpChar c) ∧
      6 ≤ chars.length ∧ ∀ c ∈ chars, Bech32.isDataChar c := by
  obtain ⟨hencode, hdata⟩ := Bech32Code.decode_eq_some.mp h
  obtain ⟨hcheck, heq⟩ := Option.ite_none_right_eq_some.mp hencode
  rw [Bech32Code.checkHrp, Bool.and_eq_true, List.all_eq_true] at hcheck
  obtain ⟨hempty, hchars⟩ := hcheck
  refine ⟨_, (Option.some.inj heq).symm, ?_, hchars, ?_, fun c hc => ?_⟩
  · exact List.length_pos_iff.mpr (by simpa using hempty)
  · rw [List.length_map, List.length_append, Bech32Code.createChecksum_length]
    exact Nat.le_add_left 6 _
  · obtain ⟨d, hd, rfl⟩ := List.mem_map.mp hc
    rcases List.mem_append.mp hd with hd | hd
    · exact isDataChar_charOf d (hdata d hd)
    · exact isDataChar_charOf d (Bech32Code.createChecksum_lt hd)

theorem lowerCrates_documented : Documented lowerCrates 20 where
  libra := hexCrate_sized 16
  account := hexCrate_sized 20
  bech32_upper := rfl
  ss58_upper := rfl
  decode_chars := by
    intro s x h
    obtain ⟨hdecode, hlen⟩ := Option.filter_eq_some_iff.mp h
    obtain ⟨chars, heq, hpos, hhrp, hsix, hdata⟩ := decode_parts hdecode
    exact ⟨x.1, chars, heq, hpos, of_decide_eq_true hlen, hhrp, hsix, hdata⟩
  convertBits_bytes := by
    intro data bytes h
    obtain ⟨hall, heq⟩ := Option.ite_none_right_eq_some.mp h
    obtain rfl := Option.some.inj heq
    have hdata : ∀ d ∈ data, d < 2 ^ 5 := by simpa using hall
    exact (Regroup.isRegrouping_regroup (by decide) (by decide) hdata).lt
  fromBase58_chars := (crates_documented 20).fromBase58_chars

end MoveTools.Compiler.AccountAddresses
