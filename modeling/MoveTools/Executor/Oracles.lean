import MoveTools.Library.Text

namespace MoveTools.Executor

abbrev Bytes := List ℕ

/-- An address as the number its bytes stand for. -/
abbrev AccountAddress := ℕ

mutual

inductive TypeTag where
  | Bool
  | U8
  | U64
  | U128
  | Address
  | Signer
  | Vector (t : TypeTag)
  | Struct (s : StructTag)

structure StructTag where
  address : AccountAddress
  module : Text
  name : Text
  typeParams : List TypeTag

end

mutual

def TypeTag.decEq (a : TypeTag) : ∀ b, Decidable (a = b) :=
  match a with
  | .Vector t => fun
    | .Vector u =>
      match TypeTag.decEq t u with
      | isTrue h => isTrue (congrArg _ h)
      | isFalse h => isFalse fun he => h (TypeTag.Vector.inj he)
    | .Bool | .U8 | .U64 | .U128 | .Address | .Signer | .Struct _ => isFalse nofun
  | .Struct s => fun
    | .Struct t =>
      match StructTag.decEq s t with
      | isTrue h => isTrue (congrArg _ h)
      | isFalse h => isFalse fun he => h (TypeTag.Struct.inj he)
    | .Bool | .U8 | .U64 | .U128 | .Address | .Signer | .Vector _ => isFalse nofun
  | .Bool => fun
    | .Bool => isTrue rfl
    | .U8 | .U64 | .U128 | .Address | .Signer | .Vector _ | .Struct _ => isFalse nofun
  | .U8 => fun
    | .U8 => isTrue rfl
    | .Bool | .U64 | .U128 | .Address | .Signer | .Vector _ | .Struct _ => isFalse nofun
  | .U64 => fun
    | .U64 => isTrue rfl
    | .Bool | .U8 | .U128 | .Address | .Signer | .Vector _ | .Struct _ => isFalse nofun
  | .U128 => fun
    | .U128 => isTrue rfl
    | .Bool | .U8 | .U64 | .Address | .Signer | .Vector _ | .Struct _ => isFalse nofun
  | .Address => fun
    | .Address => isTrue rfl
    | .Bool | .U8 | .U64 | .U128 | .Signer | .Vector _ | .Struct _ => isFalse nofun
  | .Signer => fun
    | .Signer => isTrue rfl
    | .Bool | .U8 | .U64 | .U128 | .Address | .Vector _ | .Struct _ => isFalse nofun

def StructTag.decEq (a b : StructTag) : Decidable (a = b) :=
  match a, b with
  | ⟨a, m, n, ts⟩, ⟨b, k, l, us⟩ =>
    if h : a = b ∧ m = k ∧ n = l then
      match TypeTag.decEqs ts us with
      | isTrue ht => isTrue (by rw [h.1, h.2.1, h.2.2, ht])
      | isFalse ht => isFalse fun he => ht (StructTag.mk.inj he).2.2.2
    else isFalse fun he => h (by simp [StructTag.mk.inj he])

def TypeTag.decEqs (a b : List TypeTag) : Decidable (a = b) :=
  match a, b with
  | [], [] => isTrue rfl
  | [], _ :: _ => isFalse nofun
  | _ :: _, [] => isFalse nofun
  | t :: ts, u :: us =>
    match TypeTag.decEq t u, TypeTag.decEqs ts us with
    | isTrue h, isTrue hs => isTrue (by rw [h, hs])
    | isFalse h, _ => isFalse fun he => h (List.cons.inj he).1
    | isTrue _, isFalse h => isFalse fun he => h (List.cons.inj he).2

end

instance : DecidableEq TypeTag := TypeTag.decEq

instance : DecidableEq StructTag := StructTag.decEq

structure ModuleId where
  address : AccountAddress
  name : Text
  deriving DecidableEq

/-- The strings of the standard library and of `move_core_types` that are called here: Unicode
upper case, and `Identifier::is_valid`. -/
structure Identifiers where
  toUppercase : Text → Text
  isValid : Text → Bool

def CORE_CODE_ADDRESS : AccountAddress := 1

def COIN_MODULE : Text := "Coins".toList
def PRICE_STRUCT : Text := "Price".toList
def ACCOUNT_MODULE : Text := "Account".toList
def ACCOUNT_BALANCE_STRUCT : Text := "Balance".toList
def XFI_MODULE : Text := "XFI".toList
def XFI_RESOURCE : Text := "T".toList
def BLOCK_RESOURCE : Text := "BlockMetadata".toList

section
variable (ids : Identifiers)

/-- `Identifier::new(curr).expect(..)` panics for other texts. -/
def currencyType (curr : Text) : Option TypeTag :=
  let curr := ids.toUppercase curr
  if curr = XFI_MODULE then some (.Struct ⟨CORE_CODE_ADDRESS, XFI_MODULE, XFI_RESOURCE, []⟩)
  else if ids.isValid curr then some (.Struct ⟨CORE_CODE_ADDRESS, COIN_MODULE, curr, []⟩)
  else none

def oracleCoinsModule : ModuleId := ⟨CORE_CODE_ADDRESS, COIN_MODULE⟩

def oracleMetadata (first second : Text) : Option StructTag := do
  let first ← currencyType ids first
  let second ← currencyType ids second
  pure ⟨CORE_CODE_ADDRESS, COIN_MODULE, PRICE_STRUCT, [first, second]⟩

def blockMetadata : StructTag := ⟨CORE_CODE_ADDRESS, "Block".toList, BLOCK_RESOURCE, []⟩

def timeMetadata : StructTag := ⟨CORE_CODE_ADDRESS, "Time".toList, "CurrentTimestamp".toList, []⟩

def coinBalanceMetadata (currency : Text) : Option StructTag :=
  (currencyType ids currency).map fun t =>
    ⟨CORE_CODE_ADDRESS, ACCOUNT_MODULE, ACCOUNT_BALANCE_STRUCT, [t]⟩

end
end MoveTools.Executor
