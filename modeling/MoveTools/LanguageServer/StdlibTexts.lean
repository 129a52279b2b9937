import MoveTools.Library.Collect
import MoveTools.Compiler.LibraRewriting
import MoveTools.LanguageServer.Analysis
import MoveTools.LanguageServer.OpenDocuments
import MoveTools.LanguageServer.Pool

namespace MoveTools.LanguageServer.StdlibTexts
open Collect Compiler Compiler.Parser OpenDocuments Runs

/-- What the server was told of the files: by the last load of a configuration, and by the events
that it has taken from the channel since then. -/
structure Told where
  loaded : Text → Option Text
  taken : List FileSystemEvent := []

/-- The last word about a file. -/
def Told.text (told : Told) (p : Text) : Option Text :=
  match told.taken.reverse.find? (·.path = p) with
  | some e => e.text
  | none => told.loaded p

def Told.take (told : Told) (e : Option FileSystemEvent) : Told :=
  { told with taken := told.taken ++ e.toList }

/-- A call of `check_file`. -/
structure Check where
  analysis : Analysis
  now : Moment
  file : MoveFile

/-- The system, with a record of what it was told, now and when each job was submitted, and of the
checks made so far. -/
structure World where
  system : System Diagnostic
  told : Told
  jobsTold : List Told := []
  checks : List Check := []

/-- The disk may be another one in every step, and in every check of a job. -/
inductive Action where
  | lsp (disk : Disk) (message : ClientMessage)
  | fileSystem (disk : Disk)
  | compute (moments : Text → Moment) (order : List Text)
  | deliver (disk : Disk)

variable (lang : MoveLang) (fuel : ℕ) (env : Env)

/-- The configuration that a message puts into effect. -/
def configured (disk : Disk) (s : Server Diagnostic) : ClientMessage → Option Config
  | .response ⟨id, none, some (some newConfig)⟩ =>
    if s.loopState.configurationRequestId = some id then
      (Config.default env).map fun config => config.update env disk newConfig
    else none
  | _ => none

def Told.afterMessage (told : Told) (disk : Disk) (s : Server Diagnostic)
    (message : ClientMessage) : Told :=
  match configured env disk s message with
  | some config => ⟨diskText disk config, []⟩
  | none => told

def checker (db : RootDatabase) (moments : Text → Moment) (file : MoveFile) :
    Option (Option (Text × Diagnostic)) :=
  (Analysis.mk db).checkFile lang fuel env (moments file.name) file

/-- The files that a job checks, up to the first check that panics. -/
def checkedFiles (check : MoveFile → Option (Option (Text × Diagnostic))) (db : RootDatabase) :
    List Text → List MoveFile
  | [] => []
  | fpath :: order =>
    match db.availableFiles.lookup fpath with
    | none => checkedFiles check db order
    | some text =>
      ⟨fpath, text⟩ :: if (check ⟨fpath, text⟩).isSome then checkedFiles check db order else []

def checksOf (db : RootDatabase) (moments : Text → Moment) (order : List Text) : List Check :=
  (checkedFiles (checker lang fuel env db moments) db order).map fun file =>
    ⟨⟨db⟩, moments file.name, file⟩

namespace World

def start (disk : Disk) (server : Server Diagnostic) : World where
  system := { server }
  told := ⟨diskText disk server.globalState.db.config, []⟩

def step (w : World) : Action → Option World
  | .lsp disk message =>
    (w.system.step env (.lsp disk message)).map fun system =>
      { w with system, told := w.told.afterMessage env disk w.system.server message }
  | .fileSystem disk =>
    (w.system.step env (.fileSystem disk)).map fun system =>
      { w with
        system
        told := w.told.take w.system.server.fsEvents.head?
        jobsTold := w.jobsTold ++ [w.told.take w.system.server.fsEvents.head?] }
  | .compute moments order => do
    let job ← w.system.server.jobs[w.system.started]?
    if ∀ fpath ∈ order, (moments fpath).Orders job.db then
      (w.system.step env (.compute (checker lang fuel env job.db moments) order)).map fun system =>
        { w with system, checks := w.checks ++ checksOf lang fuel env job.db moments order }
    else none
  | .deliver disk =>
    (w.system.step env (.deliver disk)).map fun system => { w with system }

end World

namespace Check

variable (c : Check)

/-- What is given to the compiler. -/
def passed : List MoveFile := c.file :: c.analysis.deps c.now c.file

/-- Ranges are computed from the texts that were compiled, and each error can be converted. -/
structure Sound : Prop where
  texts_eq : ∀ file ∈ c.passed, c.analysis.db.availableFiles.lookup file.name = some file.content
  converts : ∀ errors, c.analysis.check lang fuel env c.now c.file = some (.error errors) →
    ∀ error ∈ errors, c.analysis.db.Located error ∧
      ∀ e, c.analysis.db.makeDiagnostic env error ≠ some (.error e)

/-- Every file that the check reads under the stdlib folder has the text that the server was told
last. -/
def StdlibAsTold (told : Told) : Prop :=
  ∀ file ∈ c.analysis.readStdlibFiles c.now, file.name ≠ c.file.name →
    told.text file.name = some file.content

/-- The layers of a file lead both ends of a span that the compiler reports in it to character
boundaries of its source, which is shorter than `u32::MAX`. -/
def SpansLedBack : Prop :=
  let sender := some c.analysis.db.config.senderAddress
  ∀ artifact ∈ parseProgram lang fuel (env.getDialect c.analysis.db.config.dialectName) sender
      [c.file] (c.analysis.deps c.now c.file),
    ∀ error ∈ rawErrors artifact sender, ∀ x ∈ error,
      ∀ layers ∈ artifact.parsingMeta.offsetsMap x.1.file,
        ∀ file ∈ c.passed, file.name = x.1.file → Text.len file.content < 2 ^ 32 - 1 ∧
          file.content.isCharBoundary (asU32 (layers.translatePos x.1.span.start)) ∧
          file.content.isCharBoundary (asU32 (layers.translatePos x.1.span.stop))

instance (told : Told) : Decidable (c.StdlibAsTold told) :=
  inferInstanceAs (Decidable (∀ file ∈ _, _ → _ = _))

instance : Decidable (c.SpansLedBack lang fuel env) :=
  inferInstanceAs (Decidable (∀ artifact ∈ parseProgram ..,
    ∀ error ∈ rawErrors artifact _, ∀ x ∈ error, ∀ layers ∈ artifact.parsingMeta.offsetsMap x.1.file,
      ∀ file ∈ c.passed, file.name = x.1.file → _ ∧ _ ∧ _))

end Check

/-- In every check of a job, the stdlib is as the server was told before it was submitted, and the
spans of errors can be led back. -/
def InStep (w : World) : Action → Prop
  | .compute moments order =>
    ∀ job ∈ w.system.server.jobs[w.system.started]?, ∀ told ∈ w.jobsTold[w.system.started]?,
      ∀ c ∈ checksOf lang fuel env job.db moments order,
        c.StdlibAsTold told ∧ c.SpansLedBack lang fuel env
  | _ => True

instance (w : World) : ∀ action, Decidable (InStep lang fuel env w action)
  | .compute moments order =>
    inferInstanceAs (Decidable (∀ job ∈ w.system.server.jobs[w.system.started]?,
      ∀ told ∈ w.jobsTold[w.system.started]?,
        ∀ c ∈ checksOf lang fuel env job.db moments order, _ ∧ _))
  | .lsp _ _ => isTrue trivial
  | .fileSystem _ => isTrue trivial
  | .deliver _ => isTrue trivial

def AsTold (db : RootDatabase) (told : Told) : Prop :=
  ∀ p, db.availableFiles.lookup p = told.text p

structure Tracked (w : World) : Prop where
  current : AsTold w.system.server.globalState.db w.told
  jobs : List.Forall₂ (fun job told => AsTold job.db told) w.system.server.jobs w.jobsTold

variable {lang fuel env} {w w' : World} {s s' : Server Diagnostic} {disk : Disk} {told : Told}

theorem Tracked.unchanged (h : Tracked w) {system : System Diagnostic} {checks : List Check}
    (hdb : system.server.globalState.db = w.system.server.globalState.db)
    (hjobs : system.server.jobs = w.system.server.jobs) :
    Tracked { w with system, checks } where
  current := by
    rw [AsTold, hdb]
    exact h.current
  jobs := by
    rw [hjobs]
    exact h.jobs

theorem config_initializeNewGlobalState {config : Config} {state : GlobalState}
    (h : initializeNewGlobalState disk config = some state) : state.db.config = config := by
  obtain ⟨files, -, rfl⟩ := Option.map_eq_some_iff.mp h
  have hnone : ∀ (fsEvents : List FileSystemEvent) (change : AnalysisChange),
      (fsEvents.foldl GlobalState.recordChange change).configChanged = change.configChanged := by
    intro fsEvents
    induction fsEvents with
    | nil => exact fun _ => rfl
    | cons e fsEvents ih =>
      intro change
      rw [List.foldl_cons, ih]
      cases e <;> rfl
  simp only [GlobalState.new, GlobalState.updateFromEvents, RootDatabase.applyChange, hnone]
  rfl

theorem tracked_start {options : Option Settings} (h : runServer env disk options = some s) :
    Tracked (.start disk s) := by
  obtain ⟨config, -, h⟩ := Option.bind_eq_some_iff.mp h
  obtain ⟨state, hstate, heq⟩ := Option.bind_eq_some_iff.mp h
  cases heq
  refine ⟨fun p => ?_, .nil⟩
  rw [World.start, config_initializeNewGlobalState hstate]
  exact textOf_initializeNewGlobalState hstate p

theorem removeFiles_keep {uris : List Text} (h : uris.foldlM (Server.removeFile env) s = some s') :
    s'.globalState = s.globalState ∧ s'.jobs = s.jobs := by
  apply foldlM_preserves (I := fun t => t.globalState = s.globalState ∧ t.jobs = s.jobs)
    (fun _ hremove ht => ?_) h ⟨rfl, rfl⟩
  obtain ⟨fpath, -, heq⟩ := Option.bind_eq_some_iff.mp hremove
  cases heq
  exact ht

theorem onNotification_keep {not : Notification} (h : s.onNotification env not = some s') :
    s'.globalState = s.globalState ∧ s'.jobs = s.jobs := by
  cases not with
  | didOpen uri text =>
    obtain ⟨fpath, -, heq⟩ := Option.bind_eq_some_iff.mp h
    cases heq
    exact ⟨rfl, rfl⟩
  | didChange uri contentChanges =>
    obtain ⟨fpath, -, h⟩ := Option.bind_eq_some_iff.mp h
    obtain ⟨text, -, heq⟩ := Option.bind_eq_some_iff.mp h
    cases heq
    exact ⟨rfl, rfl⟩
  | didClose uri =>
    obtain ⟨fpath, -, heq⟩ := Option.bind_eq_some_iff.mp h
    cases heq
    exact ⟨rfl, rfl⟩
  | didChangeConfiguration =>
    cases h
    exact ⟨rfl, rfl⟩
  | didChangeWatchedFiles uris => exact removeFiles_keep h
  | other =>
    cases h
    exact ⟨rfl, rfl⟩

/-- A response either puts a configuration into effect or leaves the files as they are. -/
theorem onResponse_asTold {resp : Response} (h : s.onResponse env disk resp = some s')
    (htold : AsTold s.globalState.db told) :
    AsTold s'.globalState.db (told.afterMessage env disk s (.response resp)) ∧
      s'.jobs = s.jobs := by
  obtain ⟨id, error, result⟩ := resp
  unfold Server.onResponse at h
  split at h
  · rename_i hid
    simp only at hid h
    cases error with
    | some error =>
      cases h
      exact ⟨htold, rfl⟩
    | none =>
      rcases result with _ | _ | newConfig
      · cases h
        exact ⟨htold, rfl⟩
      · cases h
        exact ⟨htold, rfl⟩
      · obtain ⟨config, hconfig, h⟩ := Option.bind_eq_some_iff.mp h
        obtain ⟨state, hstate, heq⟩ := Option.bind_eq_some_iff.mp h
        cases heq
        refine ⟨fun p => ?_, rfl⟩
        simp only [Told.afterMessage, configured, if_pos hid, hconfig]
        exact textOf_initializeNewGlobalState hstate p
  · rename_i hid
    cases h
    refine ⟨?_, rfl⟩
    rcases error with _ | error
    · rcases result with _ | _ | newConfig
      · exact htold
      · exact htold
      · rwa [Told.afterMessage, configured, if_neg hid]
    · exact htold

theorem turn_lsp_asTold {message : ClientMessage} (h : turn env s ⟨disk, .lsp message⟩ = some s')
    (htold : AsTold s.globalState.db told) :
    AsTold s'.globalState.db (told.afterMessage env disk s message) ∧ s'.jobs = s.jobs := by
  cases message with
  | request =>
    cases h
    exact ⟨htold, rfl⟩
  | notification not =>
    obtain ⟨hstate, hjobs⟩ := onNotification_keep h
    rw [hstate]
    exact ⟨htold, hjobs⟩
  | response resp => exact onResponse_asTold h htold

theorem AsTold.event {state : GlobalState} (h : AsTold state.db told) (e : FileSystemEvent) :
    AsTold (state.updateFromEvents [e]).db (told.take (some e)) := by
  intro p
  refine (GlobalState.textOf_updateFromEvents_singleton state e p).trans ?_
  simp only [Told.text, Told.take, Option.toList_some, List.reverse_append,
    List.reverse_singleton, List.singleton_append, List.find?_cons]
  by_cases hp : e.path = p
  · simp [hp]
  · rw [if_neg hp, decide_eq_false hp]
    exact h p

theorem fileSystem_tracked (h : Tracked w)
    (hs : w.step lang fuel env (.fileSystem disk) = some w') : Tracked w' := by
  obtain ⟨system, hsystem, rfl⟩ := Option.map_eq_some_iff.mp hs
  obtain ⟨server, hturn, rfl⟩ := Option.map_eq_some_iff.mp hsystem
  cases hqueue : w.system.server.fsEvents with
  | nil =>
    simp only [turn, hqueue] at hturn
    cases hturn
  | cons e rest =>
    simp only [turn, hqueue] at hturn
    cases hturn
    rw [List.head?_cons]
    have hcurrent := h.current.event e
    exact ⟨hcurrent, List.rel_append h.jobs (.cons hcurrent .nil)⟩

theorem deliver_tracked (h : Tracked w)
    (hs : w.step lang fuel env (.deliver disk) = some w') : Tracked w' := by
  obtain ⟨system, hsystem, rfl⟩ := Option.map_eq_some_iff.mp hs
  cases hr : w.system.responses with
  | nil =>
    simp only [System.step, hr] at hsystem
    cases hsystem
  | cons batch rest =>
    simp only [System.step, hr] at hsystem
    obtain ⟨server, hturn, rfl⟩ := Option.map_eq_some_iff.mp hsystem
    obtain ⟨messages, -, heq⟩ := Option.bind_eq_some_iff.mp hturn
    cases heq
    exact h.unchanged rfl rfl

theorem compute_tracked (h : Tracked w) {moments : Text → Moment} {order : List Text}
    (hs : w.step lang fuel env (.compute moments order) = some w') : Tracked w' := by
  obtain ⟨job, hjob, hs⟩ := Option.bind_eq_some_iff.mp hs
  obtain ⟨-, hs⟩ := Option.ite_none_right_eq_some.mp hs
  obtain ⟨system, hsystem, rfl⟩ := Option.map_eq_some_iff.mp hs
  obtain ⟨job', -, hsystem⟩ := Option.bind_eq_some_iff.mp hsystem
  obtain ⟨-, heq⟩ := Option.ite_none_right_eq_some.mp hsystem
  cases heq
  cases computeFileDiagnostics (checker lang fuel env job.db moments) job'.db order with
  | some batch => exact h.unchanged rfl rfl
  | none => exact h.unchanged rfl rfl

theorem step_tracked (h : Tracked w) {action : Action}
    (hs : w.step lang fuel env action = some w') : Tracked w' := by
  cases action with
  | lsp disk message =>
    obtain ⟨system, hsystem, rfl⟩ := Option.map_eq_some_iff.mp hs
    obtain ⟨server, hturn, rfl⟩ := Option.map_eq_some_iff.mp hsystem
    obtain ⟨hcurrent, hjobs⟩ := turn_lsp_asTold hturn h.current
    exact ⟨hcurrent, hjobs ▸ h.jobs⟩
  | fileSystem disk => exact fileSystem_tracked h hs
  | compute moments order => exact compute_tracked h hs
  | deliver disk => exact deliver_tracked h hs

theorem mem_checkedFiles {check : MoveFile → Option (Option (Text × Diagnostic))}
    {db : RootDatabase} {order : List Text} {file : MoveFile}
    (h : file ∈ checkedFiles check db order) :
    db.availableFiles.lookup file.name = some file.content := by
  induction order with
  | nil => cases h
  | cons fpath order ih =>
    unfold checkedFiles at h
    cases hl : db.availableFiles.lookup fpath with
    | none =>
      rw [hl] at h
      exact ih h
    | some text =>
      rw [hl] at h
      rcases List.mem_cons.mp h with rfl | h
      · exact hl
      · split at h
        · exact ih h
        · cases h

theorem mem_trackedModules {analysis : Analysis} {now : Moment} {file : MoveFile}
    (h : file ∈ analysis.trackedModules now) :
    analysis.db.availableFiles.lookup file.name = some file.content := by
  obtain ⟨name, -, h⟩ := List.mem_filterMap.mp h
  obtain ⟨text, htext, rfl⟩ := Option.map_eq_some_iff.mp h
  exact htext

variable {c : Check}

/-- Only the stdlib does not come from the database. -/
theorem texts_eq_iff (hdb : AsTold c.analysis.db told)
    (hfile : c.analysis.db.availableFiles.lookup c.file.name = some c.file.content) :
    (∀ file ∈ c.passed, c.analysis.db.availableFiles.lookup file.name = some file.content) ↔
      c.StdlibAsTold told := by
  constructor
  · intro h file hstdlib hname
    rw [← hdb]
    apply h
    simp [Check.passed, Analysis.deps, hstdlib, hname]
  · intro h file hpassed
    rcases List.mem_cons.mp hpassed with rfl | hpassed
    · exact hfile
    · obtain ⟨hdep, hname⟩ := List.mem_filter.mp hpassed
      rcases List.mem_append.mp hdep with hstdlib | hmodule
      · rw [hdb]
        exact h file hstdlib (by simpa using hname)
      · exact mem_trackedModules hmodule

theorem translateError_located {file : MoveFile} {layers : FileOffsetMap} {x y : Loc × Text}
    (htext : c.analysis.db.availableFiles.lookup file.name = some file.content)
    (hname : file.name = x.1.file) (hy : layers.translateError x = some y)
    (hlen : Text.len file.content < 2 ^ 32 - 1)
    (hstart : file.content.isCharBoundary (asU32 (layers.translatePos x.1.span.start)))
    (hstop : file.content.isCharBoundary (asU32 (layers.translatePos x.1.span.stop))) :
    ∃ range, c.analysis.db.locToRange y.1 = .ok range := by
  obtain ⟨span, hspan, heq⟩ := Option.bind_eq_some_iff.mp hy
  cases heq
  obtain ⟨-, heq⟩ := Option.ite_none_right_eq_some.mp hspan
  cases heq
  apply RootDatabase.locToRange_ok _ hlen hstart hstop
  rw [← hname]
  exact htext

theorem sound_of_asTold (hdb : AsTold c.analysis.db told)
    (hfile : c.analysis.db.availableFiles.lookup c.file.name = some c.file.content)
    (hstdlib : c.StdlibAsTold told) (hspans : c.SpansLedBack lang fuel env) :
    c.Sound lang fuel env := by
  have htexts := (texts_eq_iff hdb hfile).mpr hstdlib
  refine ⟨htexts, fun errors hcheck error herror => ?_⟩
  obtain ⟨artifact, hparse, htransform⟩ := MoveChecker.check_error hcheck
  have hlocated : c.analysis.db.Located error := by
    intro y hy
    obtain ⟨rawError, hrawError, herror⟩ := mem_mapM htransform herror
    obtain ⟨x, hx, hxy⟩ := mem_mapM herror hy
    obtain ⟨layers, hlayers, hxy⟩ := Option.bind_eq_some_iff.mp hxy
    obtain ⟨file, hfile, hname⟩ := exists_of_offsetsMap hparse hlayers
    obtain ⟨hlen, hstart, hstop⟩ :=
      hspans artifact hparse rawError hrawError x hx layers hlayers file hfile hname
    exact translateError_located (htexts file hfile) hname hxy hlen hstart hstop
  exact ⟨hlocated, hlocated.makeDiagnostic_ne_error⟩

theorem checksOf_sound {db : RootDatabase} (hdb : AsTold db told) {moments : Text → Moment}
    {order : List Text}
    (h : ∀ c ∈ checksOf lang fuel env db moments order,
      c.StdlibAsTold told ∧ c.SpansLedBack lang fuel env) :
    ∀ c ∈ checksOf lang fuel env db moments order, c.Sound lang fuel env := by
  intro c hc
  obtain ⟨hstdlib, hspans⟩ := h c hc
  obtain ⟨file, hfile, rfl⟩ := List.mem_map.mp hc
  exact sound_of_asTold hdb (mem_checkedFiles hfile) hstdlib hspans

theorem step_sound {action : Action} (h : Tracked w) (hsound : ∀ c ∈ w.checks, c.Sound lang fuel env)
    (hok : InStep lang fuel env w action) (hs : w.step lang fuel env action = some w') :
    ∀ c ∈ w'.checks, c.Sound lang fuel env := by
  cases action with
  | lsp disk message =>
    obtain ⟨system, -, rfl⟩ := Option.map_eq_some_iff.mp hs
    exact hsound
  | fileSystem disk =>
    obtain ⟨system, -, rfl⟩ := Option.map_eq_some_iff.mp hs
    exact hsound
  | deliver disk =>
    obtain ⟨system, -, rfl⟩ := Option.map_eq_some_iff.mp hs
    exact hsound
  | compute moments order =>
    obtain ⟨job, hjob, hs⟩ := Option.bind_eq_some_iff.mp hs
    obtain ⟨-, hs⟩ := Option.ite_none_right_eq_some.mp hs
    obtain ⟨system, -, rfl⟩ := Option.map_eq_some_iff.mp hs
    obtain ⟨hlt, hget⟩ := List.getElem?_eq_some_iff.mp hjob
    have hlt' := h.jobs.length_eq ▸ hlt
    have htold := h.jobs.get hlt hlt'
    rw [List.get_eq_getElem, List.get_eq_getElem, hget] at htold
    intro c hc
    rcases List.mem_append.mp hc with hc | hc
    · exact hsound c hc
    · exact checksOf_sound htold (hok job hjob _ (List.getElem?_eq_getElem hlt')) c hc

/-- The stdlib is read from disk again for every check, while ranges are computed from the
database. As long as the disk has what the server was told last, every check is sound. -/
theorem checks_sound {options : Option Settings} {server : Server Diagnostic}
    (hstart : runServer env disk options = some server) {history : List Action}
    (h : Run (World.step lang fuel env) (fun _ => InStep lang fuel env) (.start disk server)
      history w) {c : Check} (hc : c ∈ w.checks) : c.Sound lang fuel env := by
  have hall : Tracked w ∧ ∀ c ∈ w.checks, c.Sound lang fuel env := by
    refine h.invariant (I := fun _ w => Tracked w ∧ ∀ c ∈ w.checks, c.Sound lang fuel env) ?_ ?_
    · refine ⟨tracked_start hstart, fun c hc => ?_⟩
      cases hc
    · exact fun ⟨ht, hsound⟩ hok hs => ⟨step_tracked ht hs, step_sound ht hsound hok hs⟩
  exact hall.2 c hc

/-- A parser that refuses an `x` at the end of a file. -/
def refusingLang : MoveLang where
  Definition := Unit
  FileCommentMap := Unit
  CheckedProgram := Unit
  CompiledUnit := Unit
  Address := Unit
  noComments := ()
  stripCommentsAndVerify _ text := .ok (text, ())
  parseFileString fname text :=
    if text.getLast? = some 'x' then
      .error [[(⟨fname, ⟨text.length - 1, text.length⟩⟩, "Unexpected token: 'x'".toList)]]
    else .ok []
  checkProgram _ _ := .ok ()
  translateProgram _ := .ok []
  fromHexLiteral _ := some ()

def stdlibEnv : Env where
  getDialect _ := LibraAddresses.libraDialect LibraRewriting.digitsCrate 100
  uriToStr uri := some uri
  urlFromFilePath fpath := some fpath

def stdlibDisk (text : Text) : Disk where
  pathExists _ := true
  loadMoveFiles
    | [] => some []
    | _ => some [⟨"/std/M.move".toList, text⟩]

def oldDisk : Disk := stdlibDisk "module M {}".toList

def newDisk : Disk := stdlibDisk "module M { } x".toList

def stdlibSettings : Settings := ⟨none, some "/std".toList, none, none⟩

theorem stdlibStart_isSome :
    (runServer stdlibEnv oldDisk (some stdlibSettings) : Option (Server Diagnostic)).isSome := by
  decide +kernel

def stdlibStart : Server Diagnostic :=
  (runServer stdlibEnv oldDisk (some stdlibSettings)).get stdlibStart_isSome

def openScript (text : Text) : List Action :=
  [.lsp oldDisk (.notification (.didOpen "/a.move".toList text)), .fileSystem oldDisk]

def checkScript (disk : Disk) : Action := .compute (fun _ => ⟨disk, []⟩) ["/a.move".toList]

/-- The first error cannot be converted into a diagnostic. -/
def Check.panics (c : Check) : Bool :=
  match c.analysis.check refusingLang 100 stdlibEnv c.now c.file with
  | some (.error (error :: _)) =>
    match c.analysis.db.makeDiagnostic stdlibEnv error with
    | some (.error _) => true
    | _ => false
  | _ => false

theorem Check.exists_error_of_panics {c : Check} (h : c.panics) : ∃ errors error e,
    c.analysis.check refusingLang 100 stdlibEnv c.now c.file = some (.error errors) ∧
      error ∈ errors ∧ c.analysis.db.makeDiagnostic stdlibEnv error = some (.error e) := by
  unfold Check.panics at h
  split at h
  · rename_i error errors hcheck
    split at h
    · rename_i e hd
      exact ⟨_, error, e, hcheck, List.mem_cons_self, hd⟩
    · cases h
  · cases h

/-- The error is at byte 13 of the file on disk, and the database has only 11 bytes of it. -/
theorem edited_stdlib_panics : ∃ history w c,
    Run (World.step refusingLang 100 stdlibEnv) (fun _ _ _ => True) (.start oldDisk stdlibStart)
        history w ∧ c ∈ w.checks ∧
      (∃ file ∈ c.passed, c.analysis.db.availableFiles.lookup file.name ≠ some file.content) ∧
      ∃ errors error e,
        c.analysis.check refusingLang 100 stdlibEnv c.now c.file = some (.error errors) ∧
        error ∈ errors ∧ c.analysis.db.makeDiagnostic stdlibEnv error = some (.error e) := by
  have hrun : ((openScript "script {}".toList ++ [checkScript newDisk]).foldlM
      (World.step refusingLang 100 stdlibEnv) (.start oldDisk stdlibStart)).map
        (fun w => w.checks.map fun c => (c.panics, decide (∃ file ∈ c.passed,
          c.analysis.db.availableFiles.lookup file.name ≠ some file.content))) =
      some [(true, true)] := by
    decide +kernel
  obtain ⟨w, hw, heq⟩ := Option.map_eq_some_iff.mp hrun
  obtain ⟨c, hc⟩ := List.length_eq_one_iff.mp (by simpa using congrArg List.length heq)
  rw [hc, List.map_singleton, List.singleton_inj, Prod.mk.injEq, decide_eq_true_eq] at heq
  refine ⟨_, w, c, .of_foldlM (fun _ _ _ _ => trivial) hw, ?_, heq.2, Check.exists_error_of_panics heq.1⟩
  rw [hc]
  exact List.mem_singleton_self c

/-- The stdlib is as it was loaded, and the error of the script is converted. -/
theorem checks_sound_unchanged : ∃ history w, ∃ c ∈ w.checks,
    Run (World.step refusingLang 100 stdlibEnv) (fun _ => InStep refusingLang 100 stdlibEnv)
        (.start oldDisk stdlibStart) history w ∧
      c.Sound refusingLang 100 stdlibEnv := by
  have hsend : ((openScript "script {}x".toList).foldlM (World.step refusingLang 100 stdlibEnv)
      (.start oldDisk stdlibStart)).map (fun w =>
        (decide (InStep refusingLang 100 stdlibEnv w (checkScript oldDisk)),
          (w.step refusingLang 100 stdlibEnv (checkScript oldDisk)).map fun w =>
            w.checks.length)) = some (true, some 1) := by
    decide +kernel
  obtain ⟨w, hw, heq⟩ := Option.map_eq_some_iff.mp hsend
  rw [Prod.mk.injEq, decide_eq_true_eq] at heq
  obtain ⟨w', hw', hlen⟩ := Option.map_eq_some_iff.mp heq.2
  obtain ⟨c, hc⟩ := List.length_eq_one_iff.mp hlen
  have hopen : Run (World.step refusingLang 100 stdlibEnv)
      (fun _ => InStep refusingLang 100 stdlibEnv) (.start oldDisk stdlibStart)
      (openScript "script {}x".toList) w := by
    refine .of_foldlM (fun a ha _ w => ?_) hw
    rcases List.mem_cons.mp ha with rfl | ha
    · exact trivial
    · obtain rfl := List.mem_singleton.mp ha
      exact trivial
  have hmem : c ∈ w'.checks := by
    rw [hc]
    exact List.mem_singleton_self c
  have hrun := hopen.next heq.1 hw'
  exact ⟨_, w', c, hmem, hrun, checks_sound (Option.some_get _).symm hrun hmem⟩

end MoveTools.LanguageServer.StdlibTexts
