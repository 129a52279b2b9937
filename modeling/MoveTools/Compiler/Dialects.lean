import MoveTools.Compiler.LibraAddresses
import MoveTools.Compiler.Bech32
import MoveTools.Compiler.Ss58

namespace MoveTools.Compiler

inductive DialectName where
  | Libra
  | DFinance
  | Polkadot
  deriving DecidableEq, Repr

/-- The crates that the dialects call: the addresses of 16 bytes, those of the width that the build
was made for, and the two encodings. -/
structure AddressCrates where
  libra : LibraAddresses.Crate
  account : LibraAddresses.Crate
  bech32 : Bech32.Crates
  ss58 : Ss58.Crates

namespace DFinance

def HRP : Text := "wallet".toList

end DFinance

section
variable (cr : AddressCrates)

/-- `AccountAddress::from_hex_literal`, with all digits written out. -/
def normalizeHex (addr : Text) : Option ProvidedAccountAddress :=
  (cr.account.fromHexLiteral addr).map fun address =>
    let loweredAddr := "0x".toList ++ cr.account.display address
    ⟨addr, loweredAddr, loweredAddr⟩

def dfinanceDialect : Dialect where
  normalizeAccountAddress addr :=
    if DFinance.HRP.isPrefixOf addr then
      (Bech32.bech32IntoLibra cr.bech32 addr).map fun loweredAddr => ⟨addr, addr, loweredAddr⟩
    else if "0x".toList.isPrefixOf addr then normalizeHex cr addr
    else none
  replaceAddresses source map := some (Bech32.replaceBech32Addresses cr.bech32 source map)

def polkadotDialect : Dialect where
  normalizeAccountAddress addr :=
    match Ss58.ss58ToLibra cr.ss58 addr with
    | some libraAddr => some ⟨addr, addr, libraAddr⟩
    | none => if "0x".toList.isPrefixOf addr then normalizeHex cr addr else none
  replaceAddresses source map := some (Ss58.replaceSs58Addresses cr.ss58 source map)

/-- `get_dialect`; `fuel` bounds the loop of the libra dialect. -/
def getDialect (fuel : ℕ) : DialectName → Dialect
  | .Libra => LibraAddresses.libraDialect cr.libra fuel
  | .DFinance => dfinanceDialect cr
  | .Polkadot => polkadotDialect cr

end
end MoveTools.Compiler
