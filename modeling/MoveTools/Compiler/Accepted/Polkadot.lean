import MoveTools.Compiler.Accepted.Meaning
import MoveTools.Compiler.Ss58Tokens

namespace MoveTools.Compiler.AccountAddresses
open Regex AddressLayers

variable {cr : AddressCrates} {length : ℕ}

theorem ss58_base58 (h : Documented cr length) {s l : Text}
    (hl : Ss58.ss58ToLibra cr.ss58 s = some l) :
    (∀ c ∈ s, Ss58.isBase58Char c) ∧
      ∃ ds, l = "0x".toList ++ ds ∧ ds.length = 64 ∧ ∀ c ∈ ds, Hex.isHex c := by
  cases hb : cr.ss58.fromBase58 s with
  | none => simp [Ss58.ss58ToLibra, hb] at hl
  | some bytes =>
    simp only [Ss58.ss58ToLibra, hb, Option.ite_none_right_eq_some, Option.some.injEq] at hl
    obtain ⟨hlen, -, rfl⟩ := hl
    rw [h.ss58_upper]
    refine ⟨h.fromBase58_chars hb, _, rfl, ?_, fun c hc => Hex.isHex_encodeUpper hc⟩
    rw [Hex.encodeUpper_length, List.length_take, List.length_drop, hlen]
    rfl

/-- A literal with one more `0x` behind its own. -/
def Spoiled (t : Text) : Prop := ∃ u, t = ' ' :: '0' :: u ∧ "0x".toList <:+: u

theorem infix_of_infix_cons {c : Char} {a s : Text} (hne : a ≠ []) (hc : c ∉ a)
    (h : a <:+: c :: s) : a <:+: s := by
  rcases List.infix_cons_iff.mp h with ⟨b, hb⟩ | h
  · obtain ⟨d, a, rfl⟩ := List.exists_cons_of_ne_nil hne
    exact absurd ((List.cons.inj hb).1 ▸ List.mem_cons_self) hc
  · exact h

section
variable {a : Found} (hne : a.address ≠ []) (hspace : ' ' ∉ a.address) (hzero : '0' ∉ a.address)
  (hlibra : "0x".toList <+: a.libra)
include hne hspace hzero hlibra

theorem spoils {u : Text} (h : a.address <:+: ' ' :: '0' :: u) :
    Spoiled (Text.replace (' ' :: '0' :: u) a.address a.libra) := by
  rw [Text.replace_cons_of_not_mem hne hspace, Text.replace_cons_of_not_mem hne hzero]
  have := infix_of_infix_cons hne hzero (infix_of_infix_cons hne hspace h)
  exact ⟨_, rfl, hlibra.isInfix.trans (Text.infix_replace hne this)⟩

theorem Spoiled.replace {t : Text} (h : Spoiled t) : Spoiled (t.replace a.address a.libra) := by
  by_cases hsub : a.address <:+: t
  · obtain ⟨u, rfl, -⟩ := h
    exact spoils hne hspace hzero hlibra hsub
  · rwa [Text.replace_of_absent hsub]

end

end MoveTools.Compiler.AccountAddresses
