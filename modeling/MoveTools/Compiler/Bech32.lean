import MoveTools.Library.Hex
import MoveTools.Compiler.AddressLayers

namespace MoveTools.Compiler
open Regex Splice AddressLayers

/-- `\s` of the `regex` crate: the Unicode white space. -/
def isWhiteSpace (c : Char) : Bool :=
  let n := c.toNat
  (9 ≤ n && n ≤ 13) || n == 0x20 || n == 0x85 || n == 0xA0 || n == 0x1680 ||
    (0x2000 ≤ n && n ≤ 0x200A) || n == 0x2028 || n == 0x2029 || n == 0x202F || n == 0x205F ||
    n == 0x3000

namespace Bech32

/-- The functions of the `bech32` and `hex` crates that are called: `decode` gives the
human-readable part and the data part without its checksum, as 5-bit values. -/
structure Crates where
  decode : Text → Option (Text × List ℕ)
  convertBits : List ℕ → ℕ → ℕ → Bool → Option (List ℕ)
  encodeUpper : List ℕ → Text

/-- What the documentation of these crates says about lengths: a bech32 string is its
human-readable part, the separator, the data and six checksum characters; regrouping
with padding rounds up; a byte has two digits. -/
structure Crates.Documented (cr : Crates) : Prop where
  decode_len : ∀ {a hrp data}, cr.decode a = some (hrp, data) →
    Text.len a = Text.len hrp + 1 + data.length + 6
  convertBits_length : ∀ {data bytes}, cr.convertBits data 5 8 true = some bytes →
    bytes.length = (5 * data.length + 7) / 8
  encodeUpper_len : ∀ bytes, Text.len (cr.encodeUpper bytes) = 2 * bytes.length

/-- The printable ASCII characters other than the space. -/
def isHrpChar (c : Char) : Bool := 0x21 ≤ c.toNat && c.toNat ≤ 0x7E

def isDataChar (c : Char) : Bool := c.isAlphanum && c != 'b' && c != 'o' && c != 'i' && c != '1'

/-- ``[\s=]+(["!#$%&'()*+,\-./0123456789:;<=>?@A-Z\[\\\]^_`a-z{|}~]{1,83}1[A-Z0-9a-z&&[^boi1]]{6,})`` -/
def BECH32_REGEX : List Item :=
  [⟨fun c => isWhiteSpace c || c == '=', 1, none⟩, ⟨isHrpChar, 1, some 83⟩, .lit '1',
    ⟨isDataChar, 6, none⟩]

variable (cr : Crates)

def bech32IntoLibra (address : Text) : Option Text := do
  let (_, dataBytes) ← cr.decode address
  let data ← cr.convertBits dataBytes 5 8 true
  let libraAddressHex := (cr.encodeUpper data).dropWhile (· == '0')
  pure ("0x".toList ++ libraAddressHex)

def items (source : Text) : List Capture :=
  captures 1 4 0 (findAll BECH32_REGEX source.length source)

def replaceBech32Addresses (source : Text) (map : FileOffsetMap) : Text × FileOffsetMap :=
  replaceAddresses (bech32IntoLibra cr) (items source) source map

def KeepsPositions (source : Text) : Prop :=
  AddressLayers.KeepsPositions (bech32IntoLibra cr) (items source) source

/-- In some reading of `source` with its addresses substituted, every substitution that changes
the length is of an address that was found, starts before the place where this address ended
in `source`, and does not end before it. -/
def DriftsLittle (source : Text) : Prop :=
  let addresses := found (bech32IntoLibra cr) (items source)
  ∃ ps, Reads (bech32IntoLibra cr) addresses source (substituteAll addresses source) ps ∧
    Recoverable 0 0 (ps.map (.map Text.len))

theorem len_dropWhile_le (f : Char → Bool) (s : Text) : Text.len (s.dropWhile f) ≤ Text.len s := by
  induction s with
  | nil => simp
  | cons c s ih =>
    rw [List.dropWhile_cons]
    split
    · simp only [Text.len_cons]
      omega
    · exact le_rfl

theorem bech32IntoLibra_eq_some {cr : Crates} {a r : Text} (ha : bech32IntoLibra cr a = some r) :
    ∃ bytes, r = "0x".toList ++ (cr.encodeUpper bytes).dropWhile (· == '0') := by
  simp only [bech32IntoLibra, Option.bind_eq_bind, Option.bind_eq_some_iff, Option.pure_def,
    Option.some.injEq] at ha
  obtain ⟨_, _, bytes, _, rfl⟩ := ha
  exact ⟨bytes, rfl⟩

theorem bech32IntoLibra_len {cr : Crates} (h : cr.Documented) {a r : Text}
    (ha : bech32IntoLibra cr a = some r) : Text.len r ≤ 2 * Text.len a := by
  simp only [bech32IntoLibra, Option.bind_eq_bind, Option.bind_eq_some_iff, Option.pure_def,
    Option.some.injEq] at ha
  obtain ⟨⟨hrp, data⟩, hd, bytes, hb, rfl⟩ := ha
  have h1 := h.decode_len hd
  have h2 : bytes.length = (5 * data.length + 7) / 8 := h.convertBits_length hb
  have h3 := h.encodeUpper_len bytes
  have h4 := len_dropWhile_le (· == '0') (cr.encodeUpper bytes)
  have h5 : Text.len "0x".toList = 2 := rfl
  rw [Text.len_append, h5]
  omega

theorem bech32_keepsPositions_iff (h : cr.Documented) (source : Text) :
    KeepsPositions cr source ↔ DriftsLittle cr source :=
  keepsPositions_iff_recoverable fun ha => bech32IntoLibra_len h ha

/-- The crates as they behave on one address. -/
def walletCrates : Crates where
  decode a :=
    if a = "wallet1me0cdn52672y7feddy7tgcj6j4dkzq2su745vh".toList then
      some ("wallet".toList, [27, 25, 15, 24, 13, 19, 20, 10, 26, 30, 10, 4, 30, 9, 25, 13, 13, 4,
        30, 11, 8, 24, 18, 26, 18, 21, 13, 22, 2, 0, 10, 16])
    else none
  convertBits data _ _ _ :=
    if data.length = 32 then
      some [222, 95, 134, 206, 138, 215, 148, 79, 39, 45, 105, 60, 180, 98, 90, 149, 91, 97, 1, 80]
    else none
  encodeUpper := Hex.encodeUpper

theorem walletCrates_documented : walletCrates.Documented where
  decode_len := by
    intro a hrp data h
    simp only [walletCrates, Option.ite_none_right_eq_some, Option.some.injEq,
      Prod.mk.injEq] at h
    obtain ⟨rfl, rfl, rfl⟩ := h
    decide
  convertBits_length := by
    intro data bytes h
    simp only [walletCrates, Option.ite_none_right_eq_some, Option.some.injEq] at h
    obtain ⟨hl, rfl⟩ := h
    simp [hl]
  encodeUpper_len := Hex.encodeUpper_len

/-- The end of a text that ends with an address: its layer at byte 46 is never reached, since
the rewritten text has 43 bytes. -/
theorem wallet_address_end :
    ¬ KeepsPositions walletCrates " wallet1me0cdn52672y7feddy7tgcj6j4dkzq2su745vh".toList := by
  intro h
  have he := h.end
  revert he
  decide +kernel

theorem bech32_keepsPositions_iff_wallet :
    KeepsPositions walletCrates " wallet1me0cdn52672y7feddy7tgcj6j4dkzq2su745vh".toList ↔
      DriftsLittle walletCrates " wallet1me0cdn52672y7feddy7tgcj6j4dkzq2su745vh".toList :=
  bech32_keepsPositions_iff _ walletCrates_documented _

end Bech32
end MoveTools.Compiler
