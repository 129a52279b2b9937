import MoveTools.Executor.Pipeline

namespace MoveTools.Executor.Expectations
open Pipeline (isError)

section
variable {vm : MoveVm} (explain : Explain vm) (meta_ : ExecutionMeta) (dataStore : FakeRemoteCache)
  (script : vm.CompiledScript) (args : List vm.Value) (gas : ℕ) (consts : ConstsMap)

/-- What the virtual machine ends in, for a step that starts it. -/
def outcome : Option (Except VMStatus vm.Effects) :=
  if meta_.oraclePrices ≠ [] ∧ dataStore.modules oracleCoinsModule = none then none
  else do
    let ds ← insertDirectives vm.ids meta_ dataStore
    let bytes ← vm.serializeScript script
    pure (vm.run ds bytes args meta_.signers gas).1

/-- A declared failure is the only one that passes, an abort before a status; where none is
declared, only success passes. -/
def IsEnforced (outcome : Option (Except VMStatus vm.Effects)) (result : StepExecutionResult) :
    Prop :=
  match meta_.abortsWith, meta_.status with
  | some code, _ => isError result = false → ∃ location,
      outcome = some (.error (.MoveAbort location code))
  | none, some status => isError result = false → ∃ location function codeOffset,
      outcome = some (.error (.ExecutionFailure status location function codeOffset))
  | none, none => isError result = false ↔ ∃ effects, outcome = some (.ok effects)

/-- A script whose failure is declared does not succeed, and one with both declarations does not
fail with the declared status. -/
def NoOtherEnd (outcome : Option (Except VMStatus vm.Effects)) : Prop :=
  ((meta_.abortsWith ≠ none ∨ meta_.status ≠ none) → ∀ effects, outcome ≠ some (.ok effects)) ∧
    (meta_.abortsWith ≠ none → ∀ status, meta_.status = some status →
      ∀ location function codeOffset,
        outcome ≠ some (.error (.ExecutionFailure status location function codeOffset)))

def Expected : VMStatus → Prop
  | .MoveAbort _ code => meta_.abortsWith = some code
  | .ExecutionFailure status _ _ _ => meta_.status = some status
  | .Error _ => False
  | .Executed => False

variable {explain meta_ dataStore script args gas consts}

theorem declared_isError {declared : Option ℕ} {actual : ℕ} {message : Text}
    {result : StepExecutionResult}
    (h : (match declared with
      | some expected =>
        if actual = expected then some (.withExpectedError message) else some (.withError message)
      | none => some (.withError message)) = some result) :
    isError result = false ↔ declared = some actual := by
  cases declared with
  | none =>
    cases h
    simp [isError, StepExecutionResult.withError]
  | some expected =>
    by_cases heq : actual = expected
    · obtain rfl := Option.some.inj ((if_pos heq).symm.trans h)
      simp [isError, StepExecutionResult.withExpectedError, heq]
    · obtain rfl := Option.some.inj ((if_neg heq).symm.trans h)
      simp [isError, StepExecutionResult.withError, Ne.symm heq]

theorem failureResult_isError {status : VMStatus} {result : StepExecutionResult}
    (h : failureResult explain meta_ dataStore script consts status = some result) :
    isError result = false ↔ Expected meta_ status := by
  cases status with
  | Executed => cases h
  | MoveAbort location code =>
    obtain ⟨message, -, h⟩ := Option.bind_eq_some_iff.mp h
    exact declared_isError h
  | ExecutionFailure status location function codeOffset =>
    obtain ⟨message, -, h⟩ := Option.bind_eq_some_iff.mp h
    exact declared_isError h
  | Error status =>
    simp only [failureResult] at h
    split at h
    · obtain ⟨message, -, rfl⟩ := Option.map_eq_some_iff.mp h
      simp [isError, StepExecutionResult.withError, Expected]
    · cases h
      simp [isError, StepExecutionResult.withError, Expected]

theorem expected_iff {status : VMStatus} : Expected meta_ status ↔
    (∃ location code, status = .MoveAbort location code ∧ meta_.abortsWith = some code) ∨
      ∃ code location function codeOffset,
        status = .ExecutionFailure code location function codeOffset ∧
          meta_.status = some code := by
  cases status <;> simp [Expected]

theorem executeScript_isError {result : StepExecutionResult} {ds' : FakeRemoteCache} {gas' : ℕ}
    (h : executeScript explain meta_ dataStore script args gas consts = some (result, ds', gas')) :
    isError result = false ↔
      (∃ effects, outcome meta_ dataStore script args gas = some (.ok effects)) ∨
        ∃ status, outcome meta_ dataStore script args gas = some (.error status) ∧
          Expected meta_ status := by
  unfold executeScript at h
  unfold outcome
  split at h
  · rename_i hmissing
    cases h
    rw [if_pos hmissing]
    simp [isError]
  · rename_i hcoins
    obtain ⟨ds, hds, h⟩ := Option.bind_eq_some_iff.mp h
    obtain ⟨bytes, hbytes, h⟩ := Option.bind_eq_some_iff.mp h
    have hrun : (do
        let ds ← insertDirectives vm.ids meta_ dataStore
        let bytes ← vm.serializeScript script
        pure (vm.run ds bytes args meta_.signers gas).1) =
        some (vm.run ds bytes args meta_.signers gas).1 := by
      simp [hds, hbytes]
    rw [if_neg hcoins, hrun]
    split at h
    · rename_i effects gas hok
      obtain ⟨explained, -, h⟩ := Option.bind_eq_some_iff.mp h
      obtain ⟨serialized, -, h⟩ := Option.bind_eq_some_iff.mp h
      cases h
      simp [isError, hok]
    · rename_i status gas herror
      obtain ⟨result', hresult, h⟩ := Option.bind_eq_some_iff.mp h
      cases h
      rw [failureResult_isError hresult, herror]
      simp

/-- A success passes whatever was declared, and a declared status passes beside a declared abort
code. -/
theorem isEnforced_iff (explain : Explain vm) (meta_ : ExecutionMeta) (dataStore : FakeRemoteCache)
    (script : vm.CompiledScript) (args : List vm.Value) (gas : ℕ) (consts : ConstsMap)
    (result : StepExecutionResult) (ds' : FakeRemoteCache) (gas' : ℕ)
    (h : executeScript explain meta_ dataStore script args gas consts = some (result, ds', gas')) :
    IsEnforced meta_ (outcome meta_ dataStore script args gas) result ↔
      NoOtherEnd meta_ (outcome meta_ dataStore script args gas) := by
  have hpass := executeScript_isError h
  generalize outcome meta_ dataStore script args gas = ending at hpass ⊢
  simp only [expected_iff] at hpass
  unfold IsEnforced NoOtherEnd
  rw [hpass]
  -- where an abort code is declared, a declared status is expected as well
  cases hc : meta_.abortsWith with
  | some code =>
    simp only [ne_eq, reduceCtorEq, not_false_eq_true, true_or, forall_const]
    constructor
    · intro hend
      refine ⟨fun effects hok => ?_, fun status hs location function codeOffset hfail => ?_⟩
      · obtain ⟨_, habort⟩ := hend (.inl ⟨effects, hok⟩)
        cases hok.symm.trans habort
      · obtain ⟨_, habort⟩ := hend (.inr ⟨_, hfail, .inr ⟨_, _, _, _, rfl, hs⟩⟩)
        cases hfail.symm.trans habort
    · rintro ⟨hno, hstatus⟩ (⟨effects, hok⟩ | ⟨_, hfail, hexpected⟩)
      · exact absurd hok (hno effects)
      · rcases hexpected with ⟨location, _, rfl, hcode⟩ | ⟨status, location, function, at_, rfl, hs⟩
        · cases hcode
          exact ⟨location, hfail⟩
        · exact absurd hfail (hstatus status hs location function at_)
  | none =>
    cases hs : meta_.status with
    | some status =>
      simp only [ne_eq, reduceCtorEq, not_true_eq_false, not_false_eq_true, or_true, forall_const,
        false_imp_iff, and_true, and_false, exists_false, false_or]
      constructor
      · intro hend effects hok
        obtain ⟨_, _, _, hfail⟩ := hend (.inl ⟨effects, hok⟩)
        cases hok.symm.trans hfail
      · rintro hno (⟨effects, hok⟩ | ⟨_, hfail, _, location, function, codeOffset, rfl, hcode⟩)
        · exact absurd hok (hno effects)
        · cases hcode
          exact ⟨location, function, codeOffset, hfail⟩
    | none => simp

end

def abortVm : MoveVm where
  CompiledModule := Empty
  CompiledScript := Option ℕ
  Layout := Unit
  Value := Unit
  Event := Unit
  selfId := nofun
  serializeModule := nofun
  serializeScript script := some script.toList
  simpleSerialize _ _ := some []
  TYPE_MISMATCH := 1
  statusName _ := []
  ids := ⟨id, fun s => s.all Char.isAlpha⟩
  run _ bytes _ _ gas :=
    match bytes with
    | [] => (.ok ⟨[], [], []⟩, gas)
    | code :: _ => (.error (.MoveAbort .Script code), gas)

def abortExplain : Explain abortVm where
  effects _ _ := some ⟨[], [], 0⟩
  abort _ _ := some []
  executionFailure _ _ := some []
  typeError _ _ := some []

def emptyStore : FakeRemoteCache := ⟨fun _ => none, fun _ => none⟩

theorem isEnforced_iff_abort :
    @IsEnforced abortVm { abortsWith := some 101 }
        (outcome { abortsWith := some 101 } emptyStore (some 101) [] 0)
        (.withExpectedError []) ↔
      @NoOtherEnd abortVm { abortsWith := some 101 }
        (outcome { abortsWith := some 101 } emptyStore (some 101) [] 0) :=
  isEnforced_iff abortExplain _ _ _ _ _ (fun _ => none) _ emptyStore 0 rfl

/-- A script succeeds that was declared to abort, and the step is a success. -/
theorem success_passes :
    (executeScript abortExplain { abortsWith := some 101 } emptyStore none [] 0
        (fun _ => none)).map Prod.fst = some (.Success ⟨[], [], 0⟩) ∧
      ¬@IsEnforced abortVm { abortsWith := some 101 }
        (outcome { abortsWith := some 101 } emptyStore none [] 0) (.Success ⟨[], [], 0⟩) := by
  refine ⟨rfl, fun h => ?_⟩
  obtain ⟨_, habort⟩ := h rfl
  cases habort

end MoveTools.Executor.Expectations
