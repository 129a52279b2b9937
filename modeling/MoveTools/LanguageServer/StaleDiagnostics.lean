import MoveTools.Library.Collect
import MoveTools.LanguageServer.OpenDocuments
import MoveTools.LanguageServer.Pool

namespace MoveTools.LanguageServer.StaleDiagnostics
open Compiler Collect KeyStore OpenDocuments Runs

variable {δ : Type} (env : Env)

/-- A list that is not empty is the one that the latest batch publishes for its URI. -/
def Fresh (latest : Option (ℕ × List (FileDiagnostic δ))) (view : Text → Option (List δ)) : Prop :=
  ∀ uri d ds, view uri = some (d :: ds) → ∃ k batch, latest = some (k, batch) ∧
    last (batch.filterMap (publishes env)) uri = some (some (d :: ds))

/-- The job checks the file with this URI, or one of its checks blames it. -/
def Covers (check : MoveFile → Option (Option (Text × δ))) (job : Job) (uri : Text) : Prop :=
  ∃ f ∈ job.files, env.urlFromFilePath f = some uri ∨
    ∃ text file d, job.db.availableFiles.lookup f = some text ∧
      check ⟨f, text⟩ = some (some (file, d)) ∧ env.urlFromFilePath file = some uri

/-- Every file for which the client shows diagnostics, or is going to when the batches on their
way have arrived, is covered by the job, unless its checks panic. -/
def CoversShown (s : System δ) : Action δ → Prop
  | .compute check order => ∀ job, s.server.jobs[s.started]? = some job →
      computeFileDiagnostics check job.db order ≠ none →
      ∀ uri d ds, s.pendingView env uri = some (d :: ds) → Covers env check job uri
  | _ => True

variable {env}

theorem mem_computeFileDiagnostics {check : MoveFile → Option (Option (Text × δ))}
    {db : RootDatabase} {order : List Text} {batch : List (FileDiagnostic δ)}
    (h : computeFileDiagnostics check db order = some batch) (e : FileDiagnostic δ) :
    e ∈ batch ↔ ∃ f ∈ order, e = ⟨f, none⟩ ∨
      ∃ text file d, db.availableFiles.lookup f = some text ∧
        check ⟨f, text⟩ = some (some (file, d)) ∧ e = ⟨file, some d⟩ := by
  induction order generalizing batch with
  | nil =>
    cases h
    simp
  | cons f order ih =>
    obtain ⟨reported, hreported, h⟩ := Option.bind_eq_some_iff.mp h
    obtain ⟨rest, hrest, heq⟩ := Option.bind_eq_some_iff.mp h
    cases heq
    have hfirst : e ∈ (reported.map fun d => (⟨d.1, some d.2⟩ : FileDiagnostic δ)).toList ↔
        ∃ text file d, db.availableFiles.lookup f = some text ∧
          check ⟨f, text⟩ = some (some (file, d)) ∧ e = ⟨file, some d⟩ := by
      cases hl : db.availableFiles.lookup f with
      | none =>
        simp only [checkTracked, hl] at hreported
        cases hreported
        simp
      | some text =>
        simp only [checkTracked, hl] at hreported
        cases reported with
        | none => simp [hreported]
        | some d =>
          obtain ⟨file, d⟩ := d
          simp [hreported]
    rw [List.cons_append, List.mem_cons, List.mem_append, hfirst, ih hrest,
      List.exists_mem_cons_iff, or_assoc]

theorem last_isSome_iff {batch : List (FileDiagnostic δ)} {uri : Text} :
    last (batch.filterMap (publishes env)) uri ≠ none ↔
      ∃ e ∈ batch, env.urlFromFilePath e.fpath = some uri := by
  simp only [ne_eq, last_eq_none, not_forall, not_not, exists_prop]
  constructor
  · rintro ⟨w, hw, rfl⟩
    obtain ⟨e, he, hpub⟩ := List.mem_filterMap.mp hw
    obtain ⟨uri, huri, rfl⟩ := Option.map_eq_some_iff.mp hpub
    exact ⟨e, he, huri⟩
  · rintro ⟨e, he, huri⟩
    exact ⟨(uri, some e.diagnostic.toList), List.mem_filterMap.mpr ⟨e, he, by
      rw [publishes, huri]
      rfl⟩, rfl⟩

theorem last_isSome_iff_covers {check : MoveFile → Option (Option (Text × δ))} {job : Job}
    {order : List Text} {batch : List (FileDiagnostic δ)} (hfiles : order.toFinset = job.files)
    (h : computeFileDiagnostics check job.db order = some batch) {uri : Text} :
    last (batch.filterMap (publishes env)) uri ≠ none ↔ Covers env check job uri := by
  rw [last_isSome_iff]
  simp only [mem_computeFileDiagnostics h, Covers, ← hfiles, List.mem_toFinset]
  constructor
  · rintro ⟨e, ⟨f, hf, rfl | ⟨text, file, d, htext, hcheck, rfl⟩⟩, huri⟩
    · exact ⟨f, hf, .inl huri⟩
    · exact ⟨f, hf, .inr ⟨text, file, d, htext, hcheck, huri⟩⟩
  · rintro ⟨f, hf, huri | ⟨text, file, d, htext, hcheck, huri⟩⟩
    · exact ⟨⟨f, none⟩, ⟨f, hf, .inl rfl⟩, huri⟩
    · exact ⟨⟨file, some d⟩, ⟨f, hf, .inr ⟨text, file, d, htext, hcheck, rfl⟩⟩, huri⟩

/-- On top of a view, a batch leaves just its own diagnostics exactly where it covers all that
the view has. -/
theorem fresh_putAll_iff {batch : List (FileDiagnostic δ)} {view : Text → Option (List δ)} {k : ℕ} :
    Fresh env (some (k, batch)) (putAll view (batch.filterMap (publishes env))) ↔
      ∀ uri d ds, view uri = some (d :: ds) →
        last (batch.filterMap (publishes env)) uri ≠ none := by
  constructor
  · intro h uri d ds hview hnone
    obtain ⟨k, batch, heq, hlast⟩ := h uri d ds (by rw [putAll_eq, hnone]; exact hview)
    cases heq
    rw [hnone] at hlast
    cases hlast
  · intro h uri d ds hview
    refine ⟨k, batch, rfl, ?_⟩
    rw [putAll_eq] at hview
    cases hlast : last (batch.filterMap (publishes env)) uri with
    | some v =>
      rw [hlast] at hview
      exact congrArg some hview
    | none =>
      rw [hlast] at hview
      exact absurd hlast (h uri d ds hview)

variable {s s' : System δ} {history : List (Action δ)}

theorem pendingView_finish (batch : List (FileDiagnostic δ)) :
    (s.finish (some batch)).pendingView env =
      putAll (s.pendingView env) (batch.filterMap (publishes env)) := by
  simp only [System.pendingView, System.finish, List.flatten_append, List.flatten_singleton,
    List.filterMap_append, putAll_append]

/-- A job leaves nothing stale exactly where it covers what is shown. -/
theorem compute_fresh_iff {check : MoveFile → Option (Option (Text × δ))} {order : List Text}
    {job : Job} {batch : List (FileDiagnostic δ)} (hjob : s.server.jobs[s.started]? = some job)
    (hbatch : computeFileDiagnostics check job.db order = some batch)
    (hs : s.step env (.compute check order) = some s') :
    Fresh env s'.latest (s'.pendingView env) ↔
      CoversShown env s (.compute check order) := by
  obtain ⟨job', hjob', h⟩ := Option.bind_eq_some_iff.mp hs
  obtain rfl : job = job' := Option.some.inj (hjob.symm.trans hjob')
  simp only [Option.ite_none_right_eq_some, Option.pure_def, Option.some.injEq] at h
  obtain ⟨⟨-, hfiles⟩, rfl⟩ := h
  rw [hbatch, pendingView_finish]
  refine fresh_putAll_iff.trans ?_
  simp only [last_isSome_iff_covers hfiles hbatch, CoversShown, hjob, Option.some.injEq,
    forall_eq', hbatch, ne_eq, reduceCtorEq, not_false_eq_true, forall_true_left]

theorem deliver_pendingView {disk : Disk} (hs : s.step env (.deliver disk) = some s') :
    s'.pendingView env = s.pendingView env ∧ s'.latest = s.latest := by
  cases hr : s.responses with
  | nil =>
    simp only [System.step, hr] at hs
    cases hs
  | cons batch rest =>
    simp only [System.step, hr] at hs
    obtain ⟨server, hturn, rfl⟩ := Option.map_eq_some_iff.mp hs
    have hview : (s.server.onTask env (.diagnostic batch)).map (fun s => clientView s.sent) = _ :=
      clientView_onTask batch
    have hturn' : s.server.onTask env (.diagnostic batch) = some server := hturn
    rw [hturn', Option.map_some] at hview
    obtain ⟨ws, hws, hview⟩ := Option.map_eq_some_iff.mp hview.symm
    have hall : ∀ e ∈ batch, publishes env e ≠ none := fun e he hnone => by
      rw [mapM_eq_none he hnone] at hws
      cases hws
    rw [mapM_eq_some_filterMap hall] at hws
    cases hws
    refine ⟨?_, rfl⟩
    rw [System.pendingView, System.pendingView, hr, List.flatten_cons, List.filterMap_append,
      putAll_append, hview]

theorem step_fresh {action : Action δ} (h : Fresh env s.latest (s.pendingView env))
    (hok : CoversShown env s action) (hs : s.step env action = some s') :
    Fresh env s'.latest (s'.pendingView env) := by
  cases action with
  | lsp disk message =>
    obtain ⟨server, hturn, rfl⟩ := Option.map_eq_some_iff.mp hs
    simpa only [System.pendingView, turn_lsp_view hturn] using h
  | fileSystem disk =>
    obtain ⟨server, hturn, rfl⟩ := Option.map_eq_some_iff.mp hs
    simpa only [System.pendingView, turn_fileSystem_sent hturn] using h
  | deliver disk =>
    obtain ⟨hview, hlatest⟩ := deliver_pendingView hs
    rwa [hview, hlatest]
  | compute check order =>
    obtain ⟨job, hjob, hstep⟩ := Option.bind_eq_some_iff.mp hs
    cases hbatch : computeFileDiagnostics check job.db order with
    | some batch => exact (compute_fresh_iff hjob hbatch hs).mpr hok
    | none =>
      simp only [Option.ite_none_right_eq_some, Option.pure_def, Option.some.injEq, hbatch] at hstep
      obtain ⟨-, rfl⟩ := hstep
      exact h

/-- Batches clear the files they check and no others, so nothing is stale as long as every job
covers what is shown. -/
theorem diagnostics_fresh {disk : Disk} {options : Option Settings} {start : Server δ}
    (hstart : runServer env disk options = some start)
    (h : Run (System.step env) (fun _ => CoversShown env) { server := start } history s)
    (hdelivered : s.UpToDate) {uri : Text} {d : δ} {ds : List δ}
    (hshown : clientView s.server.sent uri = some (d :: ds)) :
    ∃ batch, s.latest = some (s.server.jobs.length - 1, batch) ∧
      last (batch.filterMap (publishes env)) uri = some (some (d :: ds)) := by
  have hfresh : Fresh env s.latest (s.pendingView env) := by
    refine h.invariant (I := fun _ s => Fresh env s.latest (s.pendingView env)) ?_ step_fresh
    intro uri d ds hview
    obtain ⟨config, -, hs⟩ := Option.bind_eq_some_iff.mp hstart
    obtain ⟨state, -, heq⟩ := Option.bind_eq_some_iff.mp hs
    cases heq
    cases hview
  obtain ⟨hresponses, job, batch, -, -, hlatest⟩ := hdelivered
  have hview : s.pendingView env uri = some (d :: ds) := by
    rw [System.pendingView, hresponses]
    exact hshown
  obtain ⟨k, batch', heq, hlast⟩ := hfresh uri d ds hview
  rw [hlatest] at heq
  cases heq
  exact ⟨batch, hlatest, hlast⟩

def reportsText (file : MoveFile) : Option (Option (Text × Unit)) :=
  some (if file.content = [] then none else some (file.name, ()))

def sendFaulty : List (Action Unit) :=
  [.lsp emptyDisk (.notification (.didOpen "/a.move".toList "x".toList)), .fileSystem emptyDisk]

def openFaulty : List (Action Unit) :=
  sendFaulty ++ [.compute reportsText ["/a.move".toList]] ++ [.deliver emptyDisk]

def closeFaulty : List (Action Unit) :=
  [.lsp emptyDisk (.notification (.didClose "/a.move".toList)),
    .lsp emptyDisk (.notification (.didOpen "/b.move".toList [])), .fileSystem emptyDisk,
    .compute reportsText ["/b.move".toList], .deliver emptyDisk]

theorem upToDate_of_values {s : System δ} {batch : List (FileDiagnostic δ)}
    (hresponses : s.responses = []) (hjob : (s.server.jobs.getLast?.map Job.db) =
      some s.server.globalState.db) (hlatest : s.latest = some (s.server.jobs.length - 1, batch)) :
    s.UpToDate := by
  obtain ⟨job, hjob, hdb⟩ := Option.map_eq_some_iff.mp hjob
  exact ⟨hresponses, job, batch, hjob, hdb, hlatest⟩

/-- The error of the closed document is still shown, though the last batch knows nothing of it. -/
theorem closed_document_stale : ∃ history s,
    Run (System.step plainEnv) (fun _ _ _ => True) { server := plainStart } history s ∧
      s.UpToDate ∧ clientView s.server.sent "/a.move".toList = some [()] ∧
      ¬ ∃ batch, s.latest = some (s.server.jobs.length - 1, batch) ∧
        last (batch.filterMap (publishes plainEnv)) "/a.move".toList = some (some [()]) := by
  have hrun : ((openFaulty ++ closeFaulty).foldlM (System.step plainEnv)
      { server := plainStart }).map (fun s => (s.responses.length,
        decide (s.server.jobs.getLast?.map Job.db = some s.server.globalState.db),
        decide (s.latest.map Prod.fst = some (s.server.jobs.length - 1)),
        s.latest.map fun l => (last (l.2.filterMap (publishes plainEnv)) "/a.move".toList).isNone,
        decide (clientView s.server.sent "/a.move".toList = some [()]))) =
          some (0, true, true, some true, true) := by
    decide +kernel
  obtain ⟨s, hs, heq⟩ := Option.map_eq_some_iff.mp hrun
  simp only [Prod.mk.injEq, List.length_eq_zero_iff, decide_eq_true_eq] at heq
  obtain ⟨hresponses, hjob, hk, hlast, hview⟩ := heq
  obtain ⟨⟨k, batch⟩, hl, rfl⟩ := Option.map_eq_some_iff.mp hk
  rw [hl, Option.map_some, Option.some.injEq, Option.isNone_iff_eq_none] at hlast
  refine ⟨_, s, .of_foldlM (fun _ _ _ _ => trivial) hs, upToDate_of_values hresponses hjob hl,
    hview, ?_⟩
  rintro ⟨batch', heq, hlast'⟩
  rw [hl] at heq
  cases heq
  rw [hlast] at hlast'
  cases hlast'

/-- While the document is open, its error is the one of the last batch. -/
theorem diagnostics_fresh_open : ∃ s,
    Run (System.step plainEnv) (fun _ => CoversShown plainEnv) { server := plainStart }
        openFaulty s ∧
      ∃ batch, s.latest = some (s.server.jobs.length - 1, batch) ∧
        last (batch.filterMap (publishes plainEnv)) "/a.move".toList = some (some [()]) := by
  have hrun : (openFaulty.foldlM (System.step plainEnv) { server := plainStart }).map (fun s =>
      (s.responses.length,
        decide (s.server.jobs.getLast?.map Job.db = some s.server.globalState.db),
        decide (s.latest.map Prod.fst = some (s.server.jobs.length - 1)),
        decide (clientView s.server.sent "/a.move".toList = some [()]))) =
          some (0, true, true, true) := by
    decide +kernel
  obtain ⟨s, hs, heq⟩ := Option.map_eq_some_iff.mp hrun
  simp only [Prod.mk.injEq, List.length_eq_zero_iff, decide_eq_true_eq] at heq
  obtain ⟨hresponses, hjob, hk, hview⟩ := heq
  obtain ⟨⟨k, batch⟩, hl, rfl⟩ := Option.map_eq_some_iff.mp hk
  have hsend : (sendFaulty.foldlM (System.step plainEnv) { server := plainStart }).map (fun s =>
      (s.responses.length, (s.server.sent.filterMap published).length)) = some (0, 0) := by
    decide +kernel
  rw [openFaulty, List.foldlM_append, List.foldlM_append] at hs
  obtain ⟨s2, hs, h4⟩ := Option.bind_eq_some_iff.mp hs
  obtain ⟨s1, h1, h3⟩ := Option.bind_eq_some_iff.mp hs
  rw [h1, Option.map_some, Option.some.injEq, Prod.mk.injEq, List.length_eq_zero_iff,
    List.length_eq_zero_iff] at hsend
  have hrun1 : Run (System.step plainEnv) (fun _ => CoversShown plainEnv)
      { server := plainStart } sendFaulty s1 := by
    refine .of_foldlM (fun a ha _ _ => ?_) h1
    rcases List.mem_cons.mp ha with rfl | ha
    · trivial
    · obtain rfl := List.mem_singleton.mp ha
      trivial
  have h3 : s1.step plainEnv (.compute reportsText ["/a.move".toList]) = some s2 := by
    simpa using h3
  have h4 : s2.step plainEnv (.deliver emptyDisk) = some s := by
    simpa using h4
  have hcovers : CoversShown plainEnv s1 (.compute reportsText ["/a.move".toList]) := by
    -- nothing is shown yet
    intro job _ _ uri d ds hview
    simp [System.pendingView, clientView, hsend, putAll] at hview
  have hdeliver : CoversShown plainEnv s2 (.deliver emptyDisk) := trivial
  have hrun := (hrun1.next hcovers h3).next hdeliver h4
  exact ⟨s, hrun, diagnostics_fresh (Option.some_get _).symm hrun
    (upToDate_of_values hresponses hjob hl) hview⟩

end MoveTools.LanguageServer.StaleDiagnostics
