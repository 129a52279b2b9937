import MoveTools.Library.Regex
import MoveTools.Compiler.Parser

namespace MoveTools.Compiler.LibraAddresses
open Regex Loop

/-- `AccountAddress` of the 16-byte `libra_move_core_types` crate. -/
structure Crate where
  Address : Type
  fromHexLiteral : Text → Option Address
  display : Address → Text

def isHexDigit (c : Char) : Bool := ('0' ≤ c && c ≤ '9') || ('a' ≤ c && c ≤ 'f')

/-- `(0x[0-9a-f]{1,32})[^0-9a-f]` -/
def LIBRA_16_BYTES_REGEX : List Item :=
  [.lit '0', .lit 'x', ⟨isHexDigit, 1, some 32⟩, .one fun c => !isHexDigit c]

variable (cr : Crate)

/-- `while let Some(mat) = LIBRA_16_BYTES_REGEX.captures(..)`, with the body. -/
def nextAddress (x : Text × FileOffsetMap) : Option (Option (Text × FileOffsetMap)) :=
  match search LIBRA_16_BYTES_REGEX x.1 with
  | none => some none
  | some mat => do
    let item := mat.capture 0 3 0
    let origAddress := item.text
    let accountAddress ← cr.fromHexLiteral origAddress
    let replAddress := "0x00000000".toList ++ cr.display accountAddress
    pure (some (mat.replaceCapture 0 3 replAddress,
      x.2.insertAddressLayer item.stop origAddress replAddress))

def replaceLibraAddress (fuel : ℕ) (source : Text) (map : FileOffsetMap) :
    Option (Text × FileOffsetMap) :=
  whileLet (nextAddress cr) fuel (source, map)

def libraDialect (fuel : ℕ) : Dialect where
  normalizeAccountAddress addr := do
    let address ← cr.fromHexLiteral addr
    pure ⟨addr, "0x".toList ++ cr.display address, "0x00000000".toList ++ cr.display address⟩
  replaceAddresses := replaceLibraAddress cr fuel

end MoveTools.Compiler.LibraAddresses
