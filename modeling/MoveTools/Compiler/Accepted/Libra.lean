import MoveTools.Compiler.LibraRewriting
import MoveTools.Compiler.Accepted.Meaning

namespace MoveTools.Compiler.AccountAddresses
open Regex AddressLayers

variable {cr : AddressCrates} {length : ℕ}

variable {run rest : Text}

end MoveTools.Compiler.AccountAddresses
