import MoveTools.Executor.Pipeline

namespace MoveTools.Executor.Pipeline
open KeyStore

variable {vm : MoveVm} (explain : Explain vm) (consts : ConstsMap)

theorem mergeEffects_eq (ds : FakeRemoteCache) (ws : List (Write ResourceKey Bytes)) :
    ds.mergeEffects ws = overlaid ds ws := by
  induction ws generalizing ds with
  | nil => rfl
  | cons w ws ih =>
    obtain ⟨key, val⟩ := w
    cases val with
    | none => exact ih (ds.remove key)
    | some val => exact ih (ds.insert key val)

theorem overlaid_append (ds : FakeRemoteCache) (ws vs : List (Write ResourceKey Bytes)) :
    overlaid ds (ws ++ vs) = overlaid (overlaid ds ws) vs := by
  unfold overlaid
  rw [putAll_append]

theorem insertPrices_eq (ds : FakeRemoteCache) (prices : List (StructTag × ℕ)) :
    prices.foldl (fun ds p => ds.insert (CORE_CODE_ADDRESS, p.1) (lcsBytes 16 p.2)) ds =
      overlaid ds (prices.map fun p => ((CORE_CODE_ADDRESS, p.1), some (lcsBytes 16 p.2))) := by
  induction prices generalizing ds with
  | nil => rfl
  | cons p prices ih => exact ih _

theorem insertBalances_eq (ids : Identifiers) (ds : FakeRemoteCache)
    (balances : List (AccountAddress × Text × ℕ)) :
    balances.foldlM (fun ds b => do
        let tag ← coinBalanceMetadata ids b.2.1
        pure (ds.insert (b.1, tag) (lcsBytes 16 b.2.2))) ds =
      (balances.mapM fun b => (coinBalanceMetadata ids b.2.1).map fun tag =>
        (((b.1, tag), some (lcsBytes 16 b.2.2)) : Write ResourceKey Bytes)).map (overlaid ds) := by
  induction balances generalizing ds with
  | nil => rfl
  | cons b balances ih =>
    rw [List.foldlM_cons, List.mapM_cons]
    cases coinBalanceMetadata ids b.2.1 with
    | none => rfl
    | some tag =>
      refine (ih (ds.insert (b.1, tag) (lcsBytes 16 b.2.2))).trans ?_
      cases balances.mapM fun b => (coinBalanceMetadata ids b.2.1).map fun tag =>
          (((b.1, tag), some (lcsBytes 16 b.2.2)) : Write ResourceKey Bytes) with
      | none => rfl
      | some ws => rfl

theorem insertDirectives_eq (ids : Identifiers) (meta_ : ExecutionMeta) (ds : FakeRemoteCache) :
    insertDirectives ids meta_ ds = (directives ids meta_).map (overlaid ds) := by
  have hblock : ∀ ds : FakeRemoteCache,
      ds.insert (CORE_CODE_ADDRESS, blockMetadata) (lcsBytes 8 (meta_.block.getD 100)) =
        overlaid ds (blockOverride (some (meta_.block.getD 100))) := fun ds => rfl
  simp only [insertDirectives, hblock, insertPrices_eq, insertBalances_eq, directives,
    overrides, balanceOverrides, Option.map_map]
  congr 1
  funext balances
  simp only [Function.comp_apply, overlaid_append, priceOverrides]
  unfold timeOverride
  cases meta_.currentTime <;> rfl

theorem writeSetSize_failure {meta_ : ExecutionMeta} {ds : FakeRemoteCache}
    {script : vm.CompiledScript} {status : VMStatus} {result : StepExecutionResult}
    (h : failureResult explain meta_ ds script consts status = some result) :
    writeSetSize result = 0 := by
  cases status with
  | Executed => cases h
  | MoveAbort location code =>
    obtain ⟨m, -, h⟩ := Option.bind_eq_some_iff.mp h
    split at h
    · split at h <;> cases h <;> rfl
    · cases h
      rfl
  | ExecutionFailure statusCode location function codeOffset =>
    obtain ⟨m, -, h⟩ := Option.bind_eq_some_iff.mp h
    split at h
    · split at h <;> cases h <;> rfl
    · cases h
      rfl
  | Error statusCode =>
    simp only [failureResult] at h
    split at h
    · obtain ⟨m, -, rfl⟩ := Option.map_eq_some_iff.mp h
      rfl
    · cases h
      rfl

/-- What `execute_script` does, as one of the three kinds of step. -/
theorem executeScript_iff {ds : FakeRemoteCache} {args : List vm.Value} {s : Script vm}
    {x : StepResultInfo × FakeRemoteCache} :
    (∃ result ds' gas, executeScript explain s.meta_ ds s.script args TOTAL_GAS consts =
        some (result, ds', gas) ∧
      x = (⟨s.name, TOTAL_GAS - gas, writeSetSize result, result⟩, ds')) ↔
      Step explain consts (directives vm.ids) ds args s x := by
  constructor
  · rintro ⟨result, ds', gas, h, rfl⟩
    unfold executeScript at h
    split at h
    · rename_i hmissing
      cases h
      rw [Nat.sub_self]
      exact .missingCoins hmissing.1 hmissing.2
    -- the prices are there or no price was asked for
    · rename_i hcoins
      have hcoins : s.meta_.oraclePrices ≠ [] → ds.modules oracleCoinsModule ≠ none :=
        fun h1 h2 => hcoins ⟨h1, h2⟩
      rw [insertDirectives_eq] at h
      obtain ⟨ds1, hds1, h⟩ := Option.bind_eq_some_iff.mp h
      obtain ⟨ws, hown, rfl⟩ := Option.map_eq_some_iff.mp hds1
      obtain ⟨bytes, hscript, h⟩ := Option.bind_eq_some_iff.mp h
      split at h
      · rename_i effects gas' hrun
        obtain ⟨explained, hexplain, h⟩ := Option.bind_eq_some_iff.mp h
        obtain ⟨⟨writes, size⟩, hwrites, h⟩ := Option.bind_eq_some_iff.mp h
        cases h
        rw [mergeEffects_eq]
        exact .success hcoins hown hscript hrun hexplain hwrites
      · rename_i status gas' hrun
        obtain ⟨result', hresult, h⟩ := Option.bind_eq_some_iff.mp h
        cases h
        rw [writeSetSize_failure explain consts hresult]
        exact .failure hcoins hown hscript hrun hresult
  · intro h
    cases h with
    | missingCoins hprices hcoins =>
      exact ⟨_, ds, TOTAL_GAS, if_pos ⟨hprices, hcoins⟩, by rw [Nat.sub_self]; rfl⟩
    | @success ws writes bytes effects gas size explained hcoins hown hscript hrun hexplain hwrites =>
      refine ⟨.Success { explained with writeSetSize := size }, _, gas, ?_, rfl⟩
      rw [executeScript, if_neg fun h => hcoins h.1 h.2, insertDirectives_eq, hown]
      simp [hscript, hrun, hexplain, hwrites, mergeEffects_eq]
    | @failure ws bytes status gas result hcoins hown hscript hrun hresult =>
      refine ⟨result, ds, gas, ?_, by rw [writeSetSize_failure explain consts hresult]⟩
      rw [executeScript, if_neg fun h => hcoins h.1 h.2, insertDirectives_eq, hown]
      simp [hscript, hrun, hresult]

variable {explain consts} {own : ExecutionMeta → Option (List (Write ResourceKey Bytes))}
  {ds : FakeRemoteCache} {args : List vm.Value} {s : Script vm} {scripts : List (Script vm)}
  {x : StepResultInfo × FakeRemoteCache} {steps : List (StepResultInfo × FakeRemoteCache)}

theorem exists_before {k : ℕ} {y : StepResultInfo × FakeRemoteCache}
    (h : steps[k + 1]? = some y) : ∃ z, steps[k]? = some z := by
  obtain ⟨hk, -⟩ := List.getElem?_eq_some_iff.mp h
  exact ⟨_, List.getElem?_eq_getElem (by omega)⟩

theorem storeBefore_cons {k : ℕ} {y : StepResultInfo × FakeRemoteCache} (h : steps[k]? = some y) :
    storeBefore ds (x :: steps) (k + 1) = storeBefore x.2 steps k := by
  cases k with
  | zero => rfl
  | succ k =>
    obtain ⟨z, hz⟩ := exists_before h
    simp [storeBefore, hz]

theorem threads_nil : Threads explain consts own ds args scripts [] ↔ scripts = [] := by
  constructor
  · intro h
    exact List.length_eq_zero_iff.mp (h.completes (by simp)).symm
  · rintro rfl
    exact ⟨by simp, by simp, by simp⟩

/-- The first step, and the run of the others from the store it left. -/
theorem threads_cons : Threads explain consts own ds args (s :: scripts) (x :: steps) ↔
    Step explain consts own ds args s x ∧ if isError x.1.result then steps = []
      else Threads explain consts own x.2 [] scripts steps := by
  constructor
  · intro h
    obtain ⟨s', hs, hstep⟩ := h.step 0 x rfl
    cases hs
    refine ⟨hstep, ?_⟩
    -- the first error ends the run; without it the others go on from the store after the step
    split
    · rename_i herror
      have := h.stops 0 x rfl herror
      exact List.length_eq_zero_iff.mp (by simpa using this)
    · rename_i hgood
      refine ⟨fun k y hy => ?_, fun k y hy herror => ?_, fun hall => ?_⟩
      · obtain ⟨s', hs, hstep⟩ := h.step (k + 1) y hy
        rw [storeBefore_cons hy] at hstep
        exact ⟨s', hs, by simpa using hstep⟩
      · have := h.stops (k + 1) y hy herror
        simpa using this
      · have := h.completes fun y hy => by
          rcases List.mem_cons.mp hy with rfl | hy
          · exact hgood
          · exact hall y hy
        simpa using this
  · rintro ⟨hstep, hrest⟩
    refine ⟨fun k y hy => ?_, fun k y hy herror => ?_, fun hall => ?_⟩
    · cases k with
      | zero =>
        cases hy
        exact ⟨s, rfl, hstep⟩
      | succ k =>
        split at hrest
        · subst hrest
          cases hy
        · obtain ⟨s', hs, h⟩ := hrest.step k y hy
          refine ⟨s', hs, ?_⟩
          have hy' : steps[k]? = some y := hy
          rw [storeBefore_cons hy']
          simpa using h
    · cases k with
      | zero =>
        cases hy
        rw [if_pos herror] at hrest
        rw [hrest]
        rfl
      | succ k =>
        split at hrest
        · subst hrest
          cases hy
        · have := hrest.stops k y hy herror
          simpa using this
    · rw [if_neg (hall x List.mem_cons_self)] at hrest
      have := hrest.completes fun y hy => hall y (List.mem_cons_of_mem _ hy)
      simpa using this

theorem runScripts_iff : runScripts explain consts ds args scripts = some steps ↔
    Threads explain consts (directives vm.ids) ds args scripts steps := by
  induction scripts generalizing ds args steps with
  | nil =>
    cases steps with
    | nil => exact iff_of_true rfl (threads_nil.mpr rfl)
    | cons x steps =>
      refine iff_of_false (by simp [runScripts]) fun h => ?_
      obtain ⟨s, hs, -⟩ := h.step 0 x rfl
      cases hs
  | cons s scripts ih =>
    cases steps with
    | nil =>
      refine iff_of_false (fun h => ?_) fun h => absurd (threads_nil.mp h) (by simp)
      obtain ⟨⟨result, ds', gas⟩, -, h⟩ := Option.bind_eq_some_iff.mp h
      simp only at h
      split at h
      · cases h
      · obtain ⟨more, -, h⟩ := Option.bind_eq_some_iff.mp h
        cases h
    | cons x steps =>
      rw [threads_cons, ← executeScript_iff]
      constructor
      · intro h
        obtain ⟨⟨result, ds', gas⟩, hstep, h⟩ := Option.bind_eq_some_iff.mp h
        simp only at h
        -- a step that is an error is the last one of the run
        split at h
        · rename_i herror
          cases h
          exact ⟨⟨result, ds', gas, hstep, rfl⟩, if_pos herror ▸ rfl⟩
        · rename_i hgood
          obtain ⟨more, hmore, h⟩ := Option.bind_eq_some_iff.mp h
          cases h
          refine ⟨⟨result, ds', gas, hstep, rfl⟩, ?_⟩
          rw [if_neg hgood]
          exact ih.mp hmore
      · rintro ⟨⟨result, ds', gas, hstep, rfl⟩, hrest⟩
        rw [runScripts, hstep]
        split at hrest
        · rename_i herror
          subst hrest
          simp only at herror
          simp [herror]
        · rename_i hgood
          simp only at hgood
          simp [hgood, ih.mpr hrest]

/-- A step changes only what its effects wrote. -/
theorem Threads.kept_once (h : Threads explain consts own ds args scripts steps) {k : ℕ}
    (hk : steps[k]? = some x) (key : ResourceKey) :
    x.2.resources key = (storeBefore ds steps k).resources key ∨
      Wrote own ds args scripts steps k key := by
  obtain ⟨s, hs, hstep⟩ := h.step k x hk
  generalize hbefore : storeBefore ds steps k = before at hstep
  generalize hargs : (if k = 0 then args else []) = stepArgs at hstep
  cases hstep with
  | missingCoins => exact .inl rfl
  | failure => exact .inl rfl
  | @success ws writes bytes effects gas size explained hcoins hown hscript hrun hexplain hwrites =>
    cases hdry : s.meta_.dryRun with
    | true => exact .inl rfl
    | false =>
      by_cases hkey : ∃ w ∈ writes, w.1 = key
      · refine .inr ⟨s, ws, bytes, effects, gas, writes, size, hs, hdry, hown, hscript, ?_,
          hwrites, hkey⟩
        rw [hbefore, hargs]
        exact hrun
      · refine .inl (putAll_of_not_written fun w hw he => hkey ⟨w, hw, he⟩)

theorem Threads.kept (h : Threads explain consts own ds args scripts steps) :
    Kept own ds args scripts steps := by
  intro k
  induction k with
  | zero =>
    intro x key hx
    exact (h.kept_once hx key).imp id fun hw => ⟨0, Nat.le_refl 0, hw⟩
  | succ k ih =>
    intro x key hx
    obtain ⟨y, hy⟩ := exists_before hx
    have hbefore : storeBefore ds steps (k + 1) = y.2 := by
      simp [storeBefore, hy]
    rcases h.kept_once hx key with hsame | hw
    · rw [hsame, hbefore]
      exact (ih y key hy).imp id fun ⟨j, hj, hw⟩ => ⟨j, Nat.le_succ_of_le hj, hw⟩
    · exact .inr ⟨k + 1, Nat.le_refl _, hw⟩

theorem steps_eq_some_iff {session : ExecutionSession vm} :
    session.steps explain args = some steps ↔
      ∃ ds, FakeRemoteCache.new session.modules = some ds ∧
        Threads explain session.consts (directives vm.ids) ds args session.scripts steps := by
  rw [ExecutionSession.steps, Option.bind_eq_bind, Option.bind_eq_some_iff]
  exact exists_congr fun _ => and_congr_right fun _ => runScripts_iff

theorem steps_iff_threads (explain : Explain vm) (session : ExecutionSession vm)
    (args : List vm.Value) (steps : List (StepResultInfo × FakeRemoteCache)) :
    session.steps explain args = some steps ↔
      ∃ ds, FakeRemoteCache.new session.modules = some ds ∧
        Threads explain session.consts (directives vm.ids) ds args session.scripts steps ∧
        Kept (directives vm.ids) ds args session.scripts steps := by
  constructor
  · intro h
    obtain ⟨ds, hds, hthreads⟩ := steps_eq_some_iff.mp h
    exact ⟨ds, hds, hthreads, hthreads.kept⟩
  · rintro ⟨ds, hds, hthreads, -⟩
    exact steps_eq_some_iff.mpr ⟨ds, hds, hthreads⟩

/-- The results that are returned are those of a run, without the stores that it went through. -/
theorem execute_eq_some_iff {session : ExecutionSession vm} {results : List StepResultInfo} :
    session.execute explain args = some results ↔
      ∃ ds steps, FakeRemoteCache.new session.modules = some ds ∧
        Threads explain session.consts (directives vm.ids) ds args session.scripts steps ∧
        steps.map Prod.fst = results := by
  rw [ExecutionSession.execute, Option.map_eq_some_iff]
  constructor
  · rintro ⟨steps, hsteps, hresults⟩
    obtain ⟨ds, hds, hthreads⟩ := steps_eq_some_iff.mp hsteps
    exact ⟨ds, steps, hds, hthreads, hresults⟩
  · rintro ⟨ds, steps, hds, hthreads, hresults⟩
    exact ⟨steps, steps_eq_some_iff.mpr ⟨ds, hds, hthreads⟩, hresults⟩

/-- Every script succeeds without effects, unless there is a block. -/
def blockVm : MoveVm where
  CompiledModule := Empty
  CompiledScript := Unit
  Layout := Unit
  Value := Unit
  Event := Unit
  selfId := nofun
  serializeModule := nofun
  serializeScript _ := some []
  simpleSerialize _ _ := some []
  TYPE_MISMATCH := 1
  statusName _ := []
  ids := ⟨id, fun s => s.all Char.isAlpha⟩
  run ds _ _ _ gas :=
    if ds.resources (CORE_CODE_ADDRESS, blockMetadata) = none then (.ok ⟨[], [], []⟩, gas)
    else (.error (.Error 0), gas)

def blockExplain : Explain blockVm where
  effects _ _ := some ⟨[], [], 0⟩
  abort _ _ := some []
  executionFailure _ _ := some []
  typeError _ _ := some []

def oneScript (meta_ : ExecutionMeta) : ExecutionSession blockVm :=
  ⟨[.Script [] () meta_], fun _ => none⟩

/-- A script runs at block 100 without having said so; and a balance in a coin that is no
identifier ends the run before the script has a result. -/
theorem oneScript_steps :
    (¬ ∃ ds steps, (oneScript {}).steps blockExplain [] = some steps ∧
      FakeRemoteCache.new (oneScript {}).modules = some ds ∧
      Threads blockExplain (oneScript {}).consts (ownDirectives blockVm.ids) ds []
        (oneScript {}).scripts steps) ∧
    (oneScript { accountsBalance := [(1, "1eth".toList, 5)] }).steps blockExplain [] = none := by
  refine ⟨?_, by decide⟩
  rintro ⟨ds, steps, hsteps, hds, hthreads⟩
  cases hds
  have herror : ((oneScript {}).steps blockExplain []).map (·.map fun x => isError x.1.result) =
      some [true] := by
    decide
  rw [hsteps, Option.map_some, Option.some.injEq] at herror
  obtain ⟨x, steps, rfl⟩ : ∃ x steps', steps = x :: steps' := by
    cases steps with
    | nil => cases herror
    | cons x steps => exact ⟨x, steps, rfl⟩
  have hx := (List.cons.inj herror).1
  obtain ⟨s, hs, hstep⟩ := hthreads.step 0 x rfl
  cases hs
  generalize hbefore : storeBefore _ (x :: steps) 0 = before at hstep
  have hempty : before.resources = fun _ => none := by
    rw [← hbefore]
    rfl
  obtain ⟨info, after⟩ := x
  cases hstep with
  | missingCoins hprices => exact hprices rfl
  | success => cases hx
  | failure _ hown _ hrun =>
    cases hown
    simp only [blockVm, overlaid, hempty] at hrun
    cases hrun

end MoveTools.Executor.Pipeline
