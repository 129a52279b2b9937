import MoveTools.Library.KeyStore
import MoveTools.Executor.Oracles

namespace MoveTools.Executor
open KeyStore

inductive AbortLocation where
  | Module (id : ModuleId)
  | Script
  deriving DecidableEq

/-- Status codes as their numbers. -/
inductive VMStatus where
  | Executed
  | Error (statusCode : ℕ)
  | MoveAbort (location : AbortLocation) (code : ℕ)
  | ExecutionFailure (statusCode : ℕ) (location : AbortLocation) (function codeOffset : ℕ)
  deriving DecidableEq

abbrev ResourceKey := AccountAddress × StructTag

structure FakeRemoteCache where
  modules : ModuleId → Option Bytes
  resources : ResourceKey → Option Bytes

structure TransactionEffects (Layout Value Event : Type) where
  modules : List (ModuleId × Bytes)
  resources : List (AccountAddress × List (StructTag × Option (Layout × Value)))
  events : List Event

/-- `(addr, (name of the coin, ..))` and the rest of the directives of a script. -/
structure ExecutionMeta where
  signers : List AccountAddress := []
  accountsBalance : List (AccountAddress × Text × ℕ) := []
  oraclePrices : List (StructTag × ℕ) := []
  currentTime : Option ℕ := none
  block : Option ℕ := none
  abortsWith : Option ℕ := none
  status : Option ℕ := none
  dryRun : Bool := false

structure ResourceChange where
  name : Text
  value : Option Text
  deriving DecidableEq

structure AddressResourceChanges where
  address : Text
  changes : List (Text × ResourceChange)
  deriving DecidableEq

structure ExplainedTransactionEffects where
  events : List ResourceChange
  resources : List AddressResourceChanges
  writeSetSize : ℕ
  deriving DecidableEq

inductive StepExecutionResult where
  | Error (error : Text)
  | ExpectedError (error : Text)
  | Success (effects : ExplainedTransactionEffects)
  deriving DecidableEq

def StepExecutionResult.withError (s : Text) : StepExecutionResult := .Error s

def StepExecutionResult.withExpectedError (s : Text) : StepExecutionResult :=
  .ExpectedError ("Expected error: ".toList ++ s)

abbrev ConstsMap := Text × Text × ℕ → Option Text

/-- The crates of the virtual machine. `run` executes a script on a store with fresh gas, and
leaves the gas that remains. -/
structure MoveVm where
  CompiledModule : Type
  CompiledScript : Type
  Layout : Type
  Value : Type
  Event : Type
  selfId : CompiledModule → ModuleId
  serializeModule : CompiledModule → Option Bytes
  serializeScript : CompiledScript → Option Bytes
  simpleSerialize : Value → Layout → Option Bytes
  TYPE_MISMATCH : ℕ
  statusName : ℕ → Text
  ids : Identifiers
  run : FakeRemoteCache → Bytes → List Value → List AccountAddress → ℕ →
    Except VMStatus (TransactionEffects Layout Value Event) × ℕ

abbrev MoveVm.Effects (vm : MoveVm) := TransactionEffects vm.Layout vm.Value vm.Event

/-- The functions that explain an outcome; `none` stands for a panic, or an error. -/
structure Explain (vm : MoveVm) where
  effects : vm.Effects → FakeRemoteCache → Option ExplainedTransactionEffects
  abort : VMStatus → ConstsMap → Option Text
  executionFailure : VMStatus → FakeRemoteCache → Option Text
  typeError : vm.CompiledScript → List AccountAddress → Option Text

/-- `lcs::to_bytes` of an unsigned integer of `n` bytes. -/
def lcsBytes : ℕ → ℕ → Bytes
  | 0, _ => []
  | n + 1, a => a % 256 :: lcsBytes n (a / 256)

variable {vm : MoveVm} (explain : Explain vm)

namespace FakeRemoteCache

/-- `none` where a module does not serialize. -/
def new (compiledModules : List vm.CompiledModule) : Option FakeRemoteCache := do
  let modules ← compiledModules.mapM fun module =>
    (vm.serializeModule module).map fun bytes => (vm.selfId module, some bytes)
  pure ⟨putAll (fun _ => none) modules, fun _ => none⟩

def insert (ds : FakeRemoteCache) (key : ResourceKey) (bytes : Bytes) : FakeRemoteCache :=
  { ds with resources := Function.update ds.resources key (some bytes) }

def remove (ds : FakeRemoteCache) (key : ResourceKey) : FakeRemoteCache :=
  { ds with resources := Function.update ds.resources key none }

def mergeEffects (ds : FakeRemoteCache) (serialized : List (ResourceKey × Option Bytes)) :
    FakeRemoteCache :=
  serialized.foldl (fun ds w =>
    match w.2 with
    | some val => ds.insert w.1 val
    | none => ds.remove w.1) ds

end FakeRemoteCache

/-- The writes of a list of changes, and the bytes written. -/
def serializeChanges (addr : AccountAddress) :
    List (StructTag × Option (vm.Layout × vm.Value)) →
      Option (List (ResourceKey × Option Bytes) × ℕ)
  | [] => some ([], 0)
  | (tag, some (layout, val)) :: changes => do
    let serialized ← vm.simpleSerialize val layout
    let (resources, size) ← serializeChanges addr changes
    pure (((addr, tag), some serialized) :: resources, serialized.length + size)
  | (tag, none) :: changes => do
    let (resources, size) ← serializeChanges addr changes
    pure (((addr, tag), none) :: resources, size)

/-- `serialize_effects`; a value that does not serialize is a panic. -/
def serializeResources :
    List (AccountAddress × List (StructTag × Option (vm.Layout × vm.Value))) →
      Option (List (ResourceKey × Option Bytes) × ℕ)
  | [] => some ([], 0)
  | (addr, changes) :: rest => do
    let (resources, size) ← serializeChanges addr changes
    let (more, moreSize) ← serializeResources rest
    pure (resources ++ more, size + moreSize)

def serializeEffects (effects : vm.Effects) : Option (List (ResourceKey × Option Bytes) × ℕ) :=
  serializeResources effects.resources

/-- The inserts into the copy of the store, before the script runs. A coin whose name is no
identifier is a panic. -/
def insertDirectives (ids : Identifiers) (meta_ : ExecutionMeta) (ds : FakeRemoteCache) :
    Option FakeRemoteCache := do
  let ds := match meta_.currentTime with
    | some currentTime => ds.insert (CORE_CODE_ADDRESS, timeMetadata) (lcsBytes 8 currentTime)
    | none => ds
  let ds := ds.insert (CORE_CODE_ADDRESS, blockMetadata) (lcsBytes 8 (meta_.block.getD 100))
  let ds := meta_.oraclePrices.foldl (fun ds p =>
    ds.insert (CORE_CODE_ADDRESS, p.1) (lcsBytes 16 p.2)) ds
  meta_.accountsBalance.foldlM (fun ds b => do
    let tag ← coinBalanceMetadata ids b.2.1
    pure (ds.insert (b.1, tag) (lcsBytes 16 b.2.2))) ds

/-- An expected abort code or status code makes an error an expected one. -/
def failureResult (meta_ : ExecutionMeta) (dataStore : FakeRemoteCache)
    (script : vm.CompiledScript) (constsMap : ConstsMap) :
    VMStatus → Option StepExecutionResult
  | .MoveAbort location code => do
    let errorMessage ← explain.abort (.MoveAbort location code) constsMap
    match meta_.abortsWith with
    | some abortCode =>
      if code = abortCode then pure (.withExpectedError errorMessage)
      else pure (.withError errorMessage)
    | none => pure (.withError errorMessage)
  | .ExecutionFailure statusCode location function codeOffset => do
    let errorMessage ← explain.executionFailure
      (.ExecutionFailure statusCode location function codeOffset) dataStore
    match meta_.status with
    | some expectedStatusCode =>
      if statusCode = expectedStatusCode then pure (.withExpectedError errorMessage)
      else pure (.withError errorMessage)
    | none => pure (.withError errorMessage)
  | .Error statusCode =>
    if statusCode = vm.TYPE_MISMATCH then
      (explain.typeError script meta_.signers).map .withError
    else
      some (.withError
        ("Execution failed with unexpected error ".toList ++ vm.statusName statusCode))
  | .Executed => none

/-- The result, the store and the gas after the step; `none` stands for an error that ends the
whole pipeline, and for a panic. -/
def executeScript (meta_ : ExecutionMeta) (dataStore : FakeRemoteCache)
    (script : vm.CompiledScript) (args : List vm.Value) (gas : ℕ) (constsMap : ConstsMap) :
    Option (StepExecutionResult × FakeRemoteCache × ℕ) :=
  -- without the module `0x1::Coins` the step ends in an error, and nothing is run
  if meta_.oraclePrices ≠ [] ∧ dataStore.modules oracleCoinsModule = none then
    some (.Error "Cannot use `price:` comments: missing `0x1::Coins` module".toList,
      dataStore, gas)
  else do
    let ds ← insertDirectives vm.ids meta_ dataStore
    let bytes ← vm.serializeScript script
    match vm.run ds bytes args meta_.signers gas with
    | (.ok effects, gas) =>
      let explained ← explain.effects effects ds
      let (serialized, size) ← serializeEffects effects
      let explained := { explained with writeSetSize := size }
      pure (.Success explained,
        if meta_.dryRun then dataStore else dataStore.mergeEffects serialized, gas)
    | (.error status, gas) =>
      let result ← failureResult explain meta_ dataStore script constsMap status
      pure (result, dataStore, gas)

end MoveTools.Executor
