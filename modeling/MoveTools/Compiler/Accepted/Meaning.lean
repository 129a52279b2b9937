import MoveTools.Compiler.Dialects

namespace MoveTools.Compiler.AccountAddresses
open Regex AddressLayers

/-- What its documentation says of an address of `length` bytes: a literal has at most so many, and
is read as a number; an address is displayed with all its digits. -/
structure Sized (cr : LibraAddresses.Crate) (length : ℕ) : Prop where
  accepts : ∀ s, (cr.fromHexLiteral s).isSome ↔
    ∃ ds, s = "0x".toList ++ ds ∧ (∀ c ∈ ds, Hex.isHex c) ∧ ds.length ≤ 2 * length
  same : ∀ {as bs : Text} {a b}, cr.fromHexLiteral ("0x".toList ++ as) = some a →
    cr.fromHexLiteral ("0x".toList ++ bs) = some b → Hex.value as = Hex.value bs → a = b
  display : ∀ {ds : Text} {a}, cr.fromHexLiteral ("0x".toList ++ ds) = some a →
    (cr.display a).length = 2 * length ∧ (∀ c ∈ cr.display a, Hex.isLower c) ∧
      Hex.value (cr.display a) = Hex.value ds

/-- What the documentation of the crates says: which characters the encodings use, and that
regrouped bits are bytes. -/
structure Documented (cr : AddressCrates) (length : ℕ) : Prop where
  libra : Sized cr.libra 16
  account : Sized cr.account length
  bech32_upper : cr.bech32.encodeUpper = Hex.encodeUpper
  ss58_upper : cr.ss58.encodeUpper = Hex.encodeUpper
  decode_chars : ∀ {s x}, cr.bech32.decode s = some x → ∃ hrp chars : Text,
    s = hrp ++ '1' :: chars ∧ 1 ≤ hrp.length ∧ hrp.length ≤ 83 ∧
      (∀ c ∈ hrp, Bech32.isHrpChar c) ∧ 6 ≤ chars.length ∧ ∀ c ∈ chars, Bech32.isDataChar c
  convertBits_bytes : ∀ {data bytes}, cr.bech32.convertBits data 5 8 true = some bytes →
    ∀ b ∈ bytes, b < 256
  fromBase58_chars : ∀ {s bytes}, cr.ss58.fromBase58 s = some bytes →
    ∀ c ∈ s, Ss58.isBase58Char c

/-- An address as it stands where a source file uses it as a value. -/
def written (s : Text) : Text := ' ' :: (s ++ [';'])

section
variable (cr : AddressCrates)

/-- The text is an address literal with the value `a`. -/
def Denotes (text : Text) (a : cr.account.Address) : Prop :=
  ∃ ds, ds ≠ [] ∧ (∀ c ∈ ds, Hex.isHex c) ∧ text = written ("0x".toList ++ ds) ∧
    cr.account.fromHexLiteral ("0x".toList ++ ds) = some a

/-- The bytes of a bech32 address, without those in front that are zero. -/
def payload (address : Text) : Option (List ℕ) := do
  let (_, dataBytes) ← cr.bech32.decode address
  let data ← cr.bech32.convertBits dataBytes 5 8 true
  pure (data.dropWhile (· == 0))

def Fits (length : ℕ) : DialectName → Text → Prop
  | .Libra, s =>
    let digits := s.drop 2
    let rest := digits.dropWhile Hex.isLower
    20 ≤ length ∧ digits ≠ [] ∧ (rest = digits ∨ 40 + rest.length ≤ 2 * length)
  | .DFinance, s =>
    if DFinance.HRP.isPrefixOf s then
      ∃ bytes, payload cr s = some bytes ∧ bytes ≠ [] ∧ bytes.length ≤ length
    else s.drop 2 ≠ []
  | .Polkadot, s =>
    if (Ss58.ss58ToLibra cr.ss58 s).isSome then 32 ≤ length ∧ 40 ≤ s.length
    else s.drop 2 ≠ [] ∧ found (Ss58.ss58ToLibra cr.ss58) (Ss58.items (written s)) = []

end

variable {cr : AddressCrates} {length : ℕ}

theorem Sized.digits {cr : LibraAddresses.Crate} (h : Sized cr length) {s : Text} {a : cr.Address}
    (hs : cr.fromHexLiteral s = some a) :
    ∃ ds, s = "0x".toList ++ ds ∧ (∀ c ∈ ds, Hex.isHex c) ∧ ds.length ≤ 2 * length :=
  (h.accepts s).mp (by rw [hs]; rfl)

theorem Sized.length_le {cr : LibraAddresses.Crate} (h : Sized cr length) {ds : Text}
    {a : cr.Address} (hs : cr.fromHexLiteral ("0x".toList ++ ds) = some a) :
    ds.length ≤ 2 * length := by
  obtain ⟨es, hes, -, hlen⟩ := h.digits hs
  rwa [List.append_cancel_left hes]

end MoveTools.Compiler.AccountAddresses
