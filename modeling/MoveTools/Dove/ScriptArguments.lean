import MoveTools.Library.Decimal
import MoveTools.Library.Words
import MoveTools.Compiler.LibraAddresses
import MoveTools.Dove.Calls

namespace MoveTools.Dove
open Syntax Attempt Compiler

/-- `Meta` of the metadata extractor. -/
structure ScriptMeta where
  name : Text
  typeParameters : List Text
  parameters : List (Text × Text)
  deriving DecidableEq, Repr

def joined : List Text → Text
  | [] => []
  | [t] => t
  | t :: ts => t ++ ", ".toList ++ joined ts

section
variable (displayAddress : Address → Text)

def accessName : ModuleAccess → Text
  | .Name name => name.toList
  | .ModuleAccess module name => module.toList ++ "::".toList ++ name.toList
  | .QualifiedModuleAccess ident name =>
    displayAddress ident.address ++ "::".toList ++ ident.name.toList ++ "::".toList ++ name.toList

mutual

def extractTypeName : Typ → Text
  | .Apply name types =>
    accessName displayAddress name ++
      match extractTypeNames types with
      | [] => []
      | t :: ts => '<' :: joined (t :: ts) ++ ">".toList
  | .Ref isMut tp =>
    (if isMut then "&mut ".toList else "&".toList) ++ extractTypeName tp
  | .Fun types tp =>
    '(' :: joined (extractTypeNames types) ++ "):".toList ++ extractTypeName tp
  | .Unit => "()".toList
  | .Multiple types => '(' :: joined (extractTypeNames types) ++ ")".toList

def extractTypeNames : List Typ → List Text
  | [] => []
  | tp :: types => extractTypeName tp :: extractTypeNames types

end

def makeScriptMeta (script : Script) : ScriptMeta where
  name := script.function.name.toList
  typeParameters := script.function.signature.typeParameters.map String.toList
  parameters := script.function.signature.parameters.map fun x =>
    (x.1.toList, extractTypeName displayAddress x.2)

end

inductive ScriptArg (A : Type) where
  | U8 (val : ℕ) | U64 (val : ℕ) | U128 (val : ℕ)
  | Bool (val : Bool)
  | Address (addr : A)
  | VectorU8 (vals : List ℕ) | VectorU64 (vals : List ℕ) | VectorU128 (vals : List ℕ)
  | VectorBool (vals : List Bool)
  | VectorAddress (addrs : List A)
  deriving DecidableEq, Repr

/-- The crates that the arguments are read with; `hexDecode` is `hex::decode`. -/
structure ArgumentCrates where
  parser : MoveParser
  ss58 : Ss58.Crates
  account : LibraAddresses.Crate
  hexDecode : Text → Option (List ℕ)

def parseBool (s : Text) : Except String Bool :=
  match Text.parseBool s with
  | some b => .ok b
  | none => .error "ParseBoolError"

/-- How the errors of number parsing are shown. -/
def debugIntError : Decimal.IntErrorKind → String
  | .Empty => "ParseIntError \x7b kind: Empty \x7d"
  | .InvalidDigit => "ParseIntError \x7b kind: InvalidDigit \x7d"
  | .PosOverflow => "ParseIntError \x7b kind: PosOverflow \x7d"

def numberFromStr (bits : ℕ) (s : Text) : Except String ℕ :=
  (Decimal.parse bits s).mapError debugIntError

section
variable (cr : ArgumentCrates)

/-- `Address::from_str` -/
def addressFromStr (addr : Text) : Option cr.account.Address :=
  match Ss58.ss58ToLibra cr.ss58 addr with
  | some addr => cr.account.fromHexLiteral addr
  | none => cr.account.fromHexLiteral addr

def argument (args : List Text) (index totalExpected : ℕ) : Except String Text :=
  match args[index]? with
  | some arg => .ok arg
  | none => .error (toString totalExpected ++ " arguments are expected.")

def parseErr (name tp : Text) (index : ℕ) (value : Text) (err : String) : String :=
  "Parameter '" ++ String.ofList name ++ "' has " ++ String.ofList tp ++
    " type. Failed to parse " ++ String.ofList value ++ " [" ++ toString index ++ "]. Error:'" ++
    err ++ "'"

/-- The number of signers, that of arguments taken, and the values. -/
abbrev Prepared := ℕ × ℕ × List (ScriptArg cr.account.Address)

variable (args : List Text) (total : ℕ)

/-- What every parameter but a signer does with the next argument. -/
def pushArgument (read : Text → Attempt String (ScriptArg cr.account.Address)) (x : Prepared cr) :
    Attempt String (Prepared cr) := do
  let arg ← result (argument args x.2.1 total)
  let value ← read arg
  pure (x.1, x.2.1 + 1, x.2.2 ++ [value])

variable {cr}

/-- `arg.parse().map_err(..)` -/
def readScalar {E : Type} (fromStr : Text → Except String E) (make : E → ScriptArg cr.account.Address)
    (name tp : Text) (index : ℕ) (arg : Text) : Attempt String (ScriptArg cr.account.Address) :=
  match fromStr arg with
  | .ok value => pure (make value)
  | .error err => throw (parseErr name tp index arg err)

def readVec {E : Type} (fuel : ℕ) (tpName : String) (fromStr : Text → Option E)
    (make : List E → ScriptArg cr.account.Address) (arg : Text) :
    Attempt String (ScriptArg cr.account.Address) := do
  let values ← parseVec cr.parser fromStr tpName fuel arg
  pure (make values)

variable (cr) in
def readAddress (arg : Text) : Attempt String (ScriptArg cr.account.Address) :=
  match addressFromStr cr arg with
  | some addr => pure (.Address addr)
  | none => throw "invalid address"

variable (cr) in
def readBytes (fuel : ℕ) (arg : Text) : Attempt String (ScriptArg cr.account.Address) :=
  if arg.contains '[' then readVec fuel "u8" (fun s => (numberFromStr 8 s).toOption) .VectorU8 arg
  else
    match cr.hexDecode arg with
    | some buffer => pure (.VectorU8 buffer)
    | none => throw "invalid hex string"

/-- One parameter in `prepare_arguments`. -/
def prepareArgument (fuel : ℕ) (x : Prepared cr) (parameter : Text × Text) :
    Attempt String (Prepared cr) :=
  let (name, tp) := parameter
  if tp = "&signer".toList then pure (x.1 + 1, x.2)
  else if tp = "bool".toList then
    pushArgument cr args total (readScalar parseBool .Bool name tp x.2.1) x
  else if tp = "u8".toList then
    pushArgument cr args total (readScalar (numberFromStr 8) .U8 name tp x.2.1) x
  else if tp = "u64".toList then
    pushArgument cr args total (readScalar (numberFromStr 64) .U64 name tp x.2.1) x
  else if tp = "u128".toList then
    pushArgument cr args total (readScalar (numberFromStr 128) .U128 name tp x.2.1) x
  else if tp = "address".toList then pushArgument cr args total (readAddress cr) x
  else if tp = "vector<u8>".toList then pushArgument cr args total (readBytes cr fuel) x
  else if tp = "vector<u64>".toList then
    pushArgument cr args total
      (readVec fuel "u64" (fun s => (numberFromStr 64 s).toOption) .VectorU64) x
  else if tp = "vector<u128>".toList then
    pushArgument cr args total
      (readVec fuel "u128" (fun s => (numberFromStr 128 s).toOption) .VectorU128) x
  else if tp = "vector<address>".toList then
    pushArgument cr args total (readVec fuel "vector<address>" (addressFromStr cr) .VectorAddress) x
  else throw ("Unexpected script parameter: " ++ String.ofList tp)

variable (cr) in
def prepareArguments (fuel : ℕ) (argsType : List (Text × Text)) : Attempt String (Prepared cr) :=
  argsType.foldlM (prepareArgument args argsType.length fuel) (0, 0, [])

end
end MoveTools.Dove
