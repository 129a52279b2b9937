import MoveTools.Compiler.Accepted.Meaning

namespace MoveTools.Compiler.AccountAddresses
open Regex AddressLayers

variable {cr : AddressCrates} {length : ℕ}

section
variable {hrp chars : Text}

end

end MoveTools.Compiler.AccountAddresses
