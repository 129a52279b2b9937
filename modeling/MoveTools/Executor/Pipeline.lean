import MoveTools.Executor.Execution

namespace MoveTools.Executor.Pipeline
open KeyStore

variable {vm : MoveVm}

variable (vm) in
inductive ExecutionUnit where
  | Module (module : vm.CompiledModule)
  | Script (name : Text) (script : vm.CompiledScript) (meta_ : ExecutionMeta)

variable (vm) in
structure Script where
  name : Text
  script : vm.CompiledScript
  meta_ : ExecutionMeta

variable (vm) in
structure ExecutionSession where
  units : List (ExecutionUnit vm)
  consts : ConstsMap

structure StepResultInfo where
  name : Text
  gasSpent : ℕ
  writeSetSize : ℕ
  result : StepExecutionResult
  deriving DecidableEq

namespace ExecutionSession

def modules (session : ExecutionSession vm) : List vm.CompiledModule :=
  session.units.filterMap fun
    | .Module module => some module
    | .Script .. => none

def scripts (session : ExecutionSession vm) : List (Script vm) :=
  session.units.filterMap fun
    | .Module _ => none
    | .Script name script meta_ => some ⟨name, script, meta_⟩

end ExecutionSession

def TOTAL_GAS : ℕ := 1000000

def isError : StepExecutionResult → Bool
  | .Error _ => true
  | _ => false

def writeSetSize : StepExecutionResult → ℕ
  | .Success explained => explained.writeSetSize
  | _ => 0

variable (explain : Explain vm) (consts : ConstsMap)

/-- The loop of `ExecutionSession::execute`: what each step reports, and the store after it. -/
def runScripts (dataStore : FakeRemoteCache) (scriptArgs : List vm.Value) :
    List (Script vm) → Option (List (StepResultInfo × FakeRemoteCache))
  | [] => some []
  | s :: scripts => do
    let (result, dataStore, remaining) ←
      executeScript explain s.meta_ dataStore s.script scriptArgs TOTAL_GAS consts
    let info : StepResultInfo := ⟨s.name, TOTAL_GAS - remaining, writeSetSize result, result⟩
    if isError result then pure [(info, dataStore)]
    else do
      let more ← runScripts dataStore [] scripts
      pure ((info, dataStore) :: more)

def ExecutionSession.steps (session : ExecutionSession vm) (scriptArgs : List vm.Value) :
    Option (List (StepResultInfo × FakeRemoteCache)) := do
  let dataStore ← FakeRemoteCache.new session.modules
  runScripts explain session.consts dataStore scriptArgs session.scripts

def ExecutionSession.execute (session : ExecutionSession vm) (scriptArgs : List vm.Value) :
    Option (List StepResultInfo) :=
  (session.steps explain scriptArgs).map (·.map Prod.fst)

/-- The store with some writes on top of it. -/
def overlaid (ds : FakeRemoteCache) (ws : List (Write ResourceKey Bytes)) : FakeRemoteCache :=
  { ds with resources := putAll ds.resources ws }

def timeOverride (meta_ : ExecutionMeta) : List (Write ResourceKey Bytes) :=
  (meta_.currentTime.map fun time =>
    ((CORE_CODE_ADDRESS, timeMetadata), some (lcsBytes 8 time))).toList

def blockOverride (block : Option ℕ) : List (Write ResourceKey Bytes) :=
  (block.map fun block => ((CORE_CODE_ADDRESS, blockMetadata), some (lcsBytes 8 block))).toList

def priceOverrides (meta_ : ExecutionMeta) : List (Write ResourceKey Bytes) :=
  meta_.oraclePrices.map fun p => ((CORE_CODE_ADDRESS, p.1), some (lcsBytes 16 p.2))

def balanceOverrides (ids : Identifiers) (meta_ : ExecutionMeta) :
    Option (List (Write ResourceKey Bytes)) :=
  meta_.accountsBalance.mapM fun b =>
    (coinBalanceMetadata ids b.2.1).map fun tag => ((b.1, tag), some (lcsBytes 16 b.2.2))

def overrides (ids : Identifiers) (block : Option ℕ) (meta_ : ExecutionMeta) :
    Option (List (Write ResourceKey Bytes)) :=
  (balanceOverrides ids meta_).map fun balances =>
    timeOverride meta_ ++ blockOverride block ++ priceOverrides meta_ ++ balances

/-- Only the directives of the step itself. -/
def ownDirectives (ids : Identifiers) (meta_ : ExecutionMeta) :
    Option (List (Write ResourceKey Bytes)) :=
  overrides ids meta_.block meta_

/-- A step without a block directive has block 100. -/
def directives (ids : Identifiers) (meta_ : ExecutionMeta) :
    Option (List (Write ResourceKey Bytes)) :=
  overrides ids (some (meta_.block.getD 100)) meta_

section
variable (own : ExecutionMeta → Option (List (Write ResourceKey Bytes)))

/-- A step on the store `ds`, with the three ways it can end: the result, and the store after it. -/
inductive Step (ds : FakeRemoteCache) (args : List vm.Value) (s : Script vm) :
    StepResultInfo × FakeRemoteCache → Prop
  | missingCoins (hprices : s.meta_.oraclePrices ≠ [])
      (hcoins : ds.modules oracleCoinsModule = none) :
      Step ds args s (⟨s.name, 0, 0,
        .Error "Cannot use `price:` comments: missing `0x1::Coins` module".toList⟩, ds)
  | success {ws writes : List (Write ResourceKey Bytes)} {bytes : Bytes} {effects : vm.Effects}
      {gas size : ℕ} {explained : ExplainedTransactionEffects}
      (hcoins : s.meta_.oraclePrices ≠ [] → ds.modules oracleCoinsModule ≠ none)
      (hown : own s.meta_ = some ws) (hscript : vm.serializeScript s.script = some bytes)
      (hrun : vm.run (overlaid ds ws) bytes args s.meta_.signers TOTAL_GAS = (.ok effects, gas))
      (hexplain : explain.effects effects (overlaid ds ws) = some explained)
      (hwrites : serializeEffects effects = some (writes, size)) :
      Step ds args s (⟨s.name, TOTAL_GAS - gas, size,
          .Success { explained with writeSetSize := size }⟩,
        if s.meta_.dryRun then ds else overlaid ds writes)
  | failure {ws : List (Write ResourceKey Bytes)} {bytes : Bytes} {status : VMStatus} {gas : ℕ}
      {result : StepExecutionResult}
      (hcoins : s.meta_.oraclePrices ≠ [] → ds.modules oracleCoinsModule ≠ none)
      (hown : own s.meta_ = some ws) (hscript : vm.serializeScript s.script = some bytes)
      (hrun : vm.run (overlaid ds ws) bytes args s.meta_.signers TOTAL_GAS = (.error status, gas))
      (hresult : failureResult explain s.meta_ ds s.script consts status = some result) :
      Step ds args s (⟨s.name, TOTAL_GAS - gas, 0, result⟩, ds)

/-- The store that step `k` starts from. -/
def storeBefore (ds : FakeRemoteCache) (steps : List (StepResultInfo × FakeRemoteCache)) :
    ℕ → FakeRemoteCache
  | 0 => ds
  | k + 1 => (steps[k]?.map Prod.snd).getD ds

/-- Each step starts from what the one before it left, only the first has arguments, and the
first error ends the run. -/
structure Threads (ds : FakeRemoteCache) (args : List vm.Value) (scripts : List (Script vm))
    (steps : List (StepResultInfo × FakeRemoteCache)) : Prop where
  step : ∀ k step, steps[k]? = some step → ∃ s, scripts[k]? = some s ∧
    Step explain consts own (storeBefore ds steps k) (if k = 0 then args else []) s step
  stops : ∀ k step, steps[k]? = some step → isError step.1.result → steps.length = k + 1
  completes : (∀ step ∈ steps, ¬ isError step.1.result) → steps.length = scripts.length

/-- The effects of step `j` wrote a resource, and were kept. -/
def Wrote (ds : FakeRemoteCache) (args : List vm.Value) (scripts : List (Script vm))
    (steps : List (StepResultInfo × FakeRemoteCache)) (j : ℕ) (key : ResourceKey) : Prop :=
  ∃ s ws bytes effects gas writes size, scripts[j]? = some s ∧ s.meta_.dryRun = false ∧
    own s.meta_ = some ws ∧ vm.serializeScript s.script = some bytes ∧
    vm.run (overlaid (storeBefore ds steps j) ws) bytes (if j = 0 then args else [])
      s.meta_.signers TOTAL_GAS = (.ok effects, gas) ∧
    serializeEffects effects = some (writes, size) ∧ ∃ w ∈ writes, w.1 = key

/-- Nothing but the effects of the steps changes what is stored. -/
def Kept (ds : FakeRemoteCache) (args : List vm.Value) (scripts : List (Script vm))
    (steps : List (StepResultInfo × FakeRemoteCache)) : Prop :=
  ∀ k step key, steps[k]? = some step → step.2.resources key = ds.resources key ∨
    ∃ j ≤ k, Wrote own ds args scripts steps j key

end

end MoveTools.Executor.Pipeline
