import MoveTools.LanguageServer.MainLoop

namespace MoveTools.LanguageServer.OpenDocuments
open Compiler Runs

variable {δ : Type} (env : Env)

def said (input : Input δ) (p : Text) : Option Text :=
  match input.ready with
  | .lsp (.notification (.didOpen uri text)) => if env.uriToStr uri = some p then some text else none
  | .lsp (.notification (.didChange uri contentChanges)) =>
    if env.uriToStr uri = some p then contentChanges.getLast? else none
  | _ => none

def clientText (history : List (Input δ)) (p : Text) : Option Text :=
  history.reverse.findSome? (said env · p)

/-- The text of a file under the folders of a configuration. -/
def diskText (disk : Disk) (config : Config) (p : Text) : Option Text := do
  let files ← initialFiles disk config
  let file ← files.reverse.find? (·.name = p)
  pure file.content

/-- A configuration that is read from an answer reverts no open document: an event for it is
still in the channel, or the disk has the text of the client. -/
def RevertsNone (history : List (Input δ)) (s : Server δ) (input : Input δ) : Prop :=
  ∀ resp newConfig config, input.ready = .lsp (.response resp) →
    s.loopState.configurationRequestId = some resp.id → resp.error = none →
    resp.result = some (some newConfig) → Config.default env = some config →
    ∀ p ∈ s.loopState.openedFiles, (∃ e ∈ s.fsEvents, e.path = p) ∨
      diskText input.disk (config.update env input.disk newConfig) p = clientText env history p

/-- The text that a file will have when the channel has been emptied. -/
def settled (s : Server δ) (p : Text) : Option Text :=
  (s.globalState.updateFromEvents s.fsEvents).textOf p

/-- Every open document is going to have the text that the client has given last. -/
def OpenKept (history : List (Input δ)) (s : Server δ) : Prop :=
  ∀ p ∈ s.loopState.openedFiles, ∃ text, clientText env history p = some text ∧
    settled s p = some text

variable {env} {s s' : Server δ} {history : List (Input δ)} {input : Input δ}

theorem clientText_snoc (p : Text) : clientText env (history ++ [input]) p =
    (said env input p).or (clientText env history p) := by
  cases h : said env input p <;> simp [clientText, h]

theorem OpenKept.quiet (h : OpenKept env history s) (hsaid : ∀ p, said env input p = none)
    (hopen : s'.loopState.openedFiles ⊆ s.loopState.openedFiles)
    (hsettled : ∀ p ∈ s'.loopState.openedFiles, settled s' p = settled s p) :
    OpenKept env (history ++ [input]) s' := by
  intro p hp
  rw [clientText_snoc, hsaid, Option.none_or, hsettled p hp]
  exact h p (hopen hp)

theorem settled_sendFsEvent (s : Server δ) (e : FileSystemEvent) (p : Text) :
    settled (s.sendFsEvent e) p = if e.path = p then e.text else settled s p := by
  simp only [settled, Server.sendFsEvent, GlobalState.textOf_updateFromEvents, List.reverse_append,
    List.reverse_singleton, List.singleton_append, List.find?_cons]
  by_cases hp : e.path = p <;> simp [hp]

theorem OpenKept.said (h : OpenKept env history s) {fpath text : Text} {e : FileSystemEvent}
    (hpath : e.path = fpath) (htext : e.text = some text)
    (hsaid : ∀ p, said env input p = if some fpath = some p then some text else none) :
    OpenKept env (history ++ [input]) ((s.sendFsEvent e).addOpened fpath) := by
  intro p hp
  have hsettled : settled ((s.sendFsEvent e).addOpened fpath) p =
      if e.path = p then e.text else settled s p := settled_sendFsEvent s e p
  rw [clientText_snoc, hsaid, hsettled, hpath, htext]
  by_cases hf : fpath = p
  · exact ⟨text, by simp [hf], by simp [hf]⟩
  · have : p ∈ s.loopState.openedFiles := by
      rcases Finset.mem_insert.mp hp with rfl | hp
      · exact absurd rfl hf
      · exact hp
    obtain ⟨t, h1, h2⟩ := h p this
    exact ⟨t, by simp [hf, h1], by simp [hf, h2]⟩

theorem removeFile_quiet {uri : Text} (h : s.removeFile env uri = some s') :
    s'.loopState.openedFiles ⊆ s.loopState.openedFiles ∧
      ∀ p ∈ s'.loopState.openedFiles, settled s' p = settled s p := by
  obtain ⟨fpath, -, heq⟩ := Option.bind_eq_some_iff.mp h
  cases heq
  refine ⟨Finset.erase_subset .., fun p hp => ?_⟩
  have hne : p ≠ fpath := (Finset.mem_erase.mp hp).1
  have : settled ((s.removeOpened fpath).sendFsEvent (.removeFile fpath)) p =
      if fpath = p then none else settled s p := settled_sendFsEvent _ _ p
  rw [this, if_neg (Ne.symm hne)]

theorem removeFiles_quiet {uris : List Text} (h : uris.foldlM (Server.removeFile env) s = some s') :
    s'.loopState.openedFiles ⊆ s.loopState.openedFiles ∧
      ∀ p ∈ s'.loopState.openedFiles, settled s' p = settled s p := by
  apply foldlM_preserves (I := fun t => t.loopState.openedFiles ⊆ s.loopState.openedFiles ∧
    ∀ p ∈ t.loopState.openedFiles, settled t p = settled s p) (fun _ hremove ht => ?_) h
    ⟨subset_rfl, fun _ _ => rfl⟩
  obtain ⟨hsub, hset⟩ := removeFile_quiet hremove
  exact ⟨hsub.trans ht.1, fun p hp => (hset p hp).trans (ht.2 p (hsub hp))⟩

theorem onNotification_openKept {not : Notification} (h : OpenKept env history s)
    (hready : input.ready = .lsp (.notification not)) (hs : s.onNotification env not = some s') :
    OpenKept env (history ++ [input]) s' := by
  cases not with
  | didOpen uri text =>
    obtain ⟨fpath, hpath, heq⟩ := Option.bind_eq_some_iff.mp hs
    cases heq
    exact h.said rfl rfl fun p => by simp [OpenDocuments.said, hready, hpath]
  | didChange uri contentChanges =>
    obtain ⟨fpath, hpath, hs⟩ := Option.bind_eq_some_iff.mp hs
    obtain ⟨newText, htext, heq⟩ := Option.bind_eq_some_iff.mp hs
    cases heq
    exact h.said rfl rfl fun p => by simp [OpenDocuments.said, hready, hpath, htext]
  | didClose uri =>
    obtain ⟨fpath, hpath, heq⟩ := Option.bind_eq_some_iff.mp hs
    cases heq
    exact h.quiet (fun p => by simp [OpenDocuments.said, hready]) (Finset.erase_subset ..)
      fun _ _ => rfl
  | didChangeConfiguration =>
    cases hs
    exact h.quiet (fun p => by simp [OpenDocuments.said, hready]) subset_rfl fun _ _ => rfl
  | didChangeWatchedFiles uris =>
    obtain ⟨hsub, hset⟩ := removeFiles_quiet hs
    exact h.quiet (fun p => by simp [OpenDocuments.said, hready]) hsub hset
  | other =>
    cases hs
    exact h.quiet (fun p => by simp [OpenDocuments.said, hready]) subset_rfl fun _ _ => rfl

theorem textOf_initializeNewGlobalState {disk : Disk} {config : Config} {state : GlobalState}
    (h : initializeNewGlobalState disk config = some state) (p : Text) :
    state.textOf p = diskText disk config p := by
  obtain ⟨files, hfiles, rfl⟩ := Option.map_eq_some_iff.mp h
  simp only [GlobalState.new, GlobalState.textOf_updateFromEvents, ← List.map_reverse,
    List.find?_map, diskText, hfiles, Option.bind_eq_bind, Option.bind_some]
  cases hfind : files.reverse.find? ((fun e : FileSystemEvent => decide (e.path = p)) ∘ .addFile)
    with
  | none =>
    have : files.reverse.find? (fun file => decide (file.name = p)) = none := hfind
    rw [this]
    rfl
  | some file =>
    have : files.reverse.find? (fun file => decide (file.name = p)) = some file := hfind
    rw [this]
    rfl

theorem onResponse_openKept {resp : Response} (h : OpenKept env history s)
    (hready : input.ready = .lsp (.response resp)) (hok : RevertsNone env history s input)
    (hs : s.onResponse env input.disk resp = some s') : OpenKept env (history ++ [input]) s' := by
  have hsaid : ∀ p, said env input p = none := fun p => by simp [OpenDocuments.said, hready]
  unfold Server.onResponse at hs
  split at hs
  · rename_i hid
    split at hs
    · cases hs
      exact h.quiet hsaid subset_rfl fun _ _ => rfl
    · rename_i newConfig herror hresult
      obtain ⟨config, hconfig, hs⟩ := Option.bind_eq_some_iff.mp hs
      obtain ⟨state, hstate, heq⟩ := Option.bind_eq_some_iff.mp hs
      cases heq
      refine h.quiet hsaid subset_rfl fun p hp => ?_
      obtain ⟨text, hclient, hsettled⟩ := h p hp
      rw [hsettled]
      unfold settled at hsettled ⊢
      rw [GlobalState.textOf_updateFromEvents] at hsettled ⊢
      -- an event that is still in the channel decides, whatever the new state holds
      rcases hok resp newConfig config hready hid herror hresult hconfig p hp with ⟨e, he, hpe⟩ |
        hdisk
      · cases hfind : s.fsEvents.reverse.find? (·.path = p) with
        | none => exact absurd hpe (by simpa using List.find?_eq_none.mp hfind e (by simpa))
        | some e' =>
          rw [hfind] at hsettled
          exact hsettled
      · cases hfind : s.fsEvents.reverse.find? (·.path = p) with
        | none =>
          simp only
          rw [textOf_initializeNewGlobalState hstate, hdisk, hclient]
        | some e' =>
          rw [hfind] at hsettled
          exact hsettled
    · cases hs
      exact h.quiet hsaid subset_rfl fun _ _ => rfl
    · cases hs
      exact h.quiet hsaid subset_rfl fun _ _ => rfl
  · cases hs
    exact h.quiet hsaid subset_rfl fun _ _ => rfl

theorem onTask_openKept {task : ResponseEvent δ} (h : OpenKept env history s)
    (hready : input.ready = .response task) (hs : s.onTask env task = some s') :
    OpenKept env (history ++ [input]) s' := by
  have hsaid : ∀ p, said env input p = none := fun p => by simp [OpenDocuments.said, hready]
  cases task with
  | respond id =>
    cases hs
    exact h.quiet hsaid subset_rfl fun _ _ => rfl
  | diagnostic fileDiags =>
    obtain ⟨messages, -, heq⟩ := Option.bind_eq_some_iff.mp hs
    cases heq
    exact h.quiet hsaid subset_rfl fun _ _ => rfl

theorem turn_openKept (h : OpenKept env history s) (hok : RevertsNone env history s input)
    (hs : turn env s input = some s') : OpenKept env (history ++ [input]) s' := by
  unfold turn at hs
  cases hready : input.ready with
  | lsp message =>
    rw [hready] at hs
    cases message with
    | request =>
      cases hs
      exact h.quiet (fun p => by simp [OpenDocuments.said, hready]) subset_rfl fun _ _ => rfl
    | notification not => exact onNotification_openKept h hready hs
    | response resp => exact onResponse_openKept h hready hok hs
  | response task =>
    rw [hready] at hs
    exact onTask_openKept h hready hs
  | fileSystem =>
    rw [hready] at hs
    cases hqueue : s.fsEvents with
    | nil =>
      rw [hqueue] at hs
      cases hs
    | cons e rest =>
      rw [hqueue] at hs
      cases hs
      refine h.quiet (fun p => by simp [OpenDocuments.said, hready]) subset_rfl fun p _ => ?_
      rw [settled, settled, hqueue]
      exact (GlobalState.textOf_updateFromEvents_cons ..).symm

/-- A new configuration rebuilds the database from the disk and forgets what is open. As long as
that reverts nothing, open documents keep the text of the client. -/
theorem openDocuments_kept {disk : Disk} {options : Option Settings} {start : Server δ}
    (hstart : runServer env disk options = some start)
    (h : Run (turn env) (RevertsNone env) start history s) (hempty : s.fsEvents = []) {p : Text}
    (hp : p ∈ s.loopState.openedFiles) :
    ∃ text, clientText env history p = some text ∧ s.globalState.textOf p = some text := by
  have hopen : start.loopState.openedFiles = ∅ := by
    obtain ⟨config, -, hs⟩ := Option.bind_eq_some_iff.mp hstart
    obtain ⟨state, -, heq⟩ := Option.bind_eq_some_iff.mp hs
    cases heq
    rfl
  have hkept : OpenKept env history s := by
    refine h.invariant (I := OpenKept env) (fun p hp => ?_) turn_openKept
    rw [hopen] at hp
    exact absurd hp (Finset.notMem_empty p)
  obtain ⟨text, hclient, hsettled⟩ := hkept p hp
  refine ⟨text, hclient, ?_⟩
  rw [← hsettled, settled, hempty, GlobalState.updateFromEvents_nil]

/-- Paths are their own URIs, and every address is accepted. -/
def plainEnv : Env where
  getDialect _ := ⟨fun addr => some ⟨addr, addr, addr⟩, fun text map => some (text, map)⟩
  uriToStr uri := some uri
  urlFromFilePath fpath := some fpath

def emptyDisk : Disk where
  pathExists _ := false
  loadMoveFiles _ := some []

def openScript : List (Input Unit) :=
  [⟨emptyDisk, .lsp (.notification (.didOpen "/script.move".toList "script {}".toList))⟩,
    ⟨emptyDisk, .fileSystem⟩]

def changeConfiguration : List (Input Unit) :=
  [⟨emptyDisk, .lsp (.notification .didChangeConfiguration)⟩,
    ⟨emptyDisk, .lsp (.response ⟨.i32 1, none, some (some ⟨none, none, none, none⟩)⟩)⟩]

theorem plainStart_isSome :
    (runServer plainEnv emptyDisk none : Option (Server Unit)).isSome := by
  decide +kernel

def plainStart : Server Unit := (runServer plainEnv emptyDisk none).get plainStart_isSome

theorem openDocument_dropped : ∃ history s,
    Run (turn plainEnv) (fun _ _ _ => True) plainStart history s ∧ s.fsEvents = [] ∧
      "/script.move".toList ∈ s.loopState.openedFiles ∧
      s.globalState.textOf "/script.move".toList = none := by
  have hrun : ((openScript ++ changeConfiguration).foldlM (turn plainEnv) plainStart).map (fun s =>
      (s.fsEvents.length, decide ("/script.move".toList ∈ s.loopState.openedFiles),
        s.globalState.textOf "/script.move".toList)) = some (0, true, none) := by
    decide +kernel
  obtain ⟨s, hs, heq⟩ := Option.map_eq_some_iff.mp hrun
  simp only [Prod.mk.injEq, List.length_eq_zero_iff, decide_eq_true_eq] at heq
  exact ⟨_, s, .of_foldlM (fun _ _ _ _ => trivial) hs, heq⟩

theorem openDocuments_kept_plain : ∃ s,
    Run (turn plainEnv) (RevertsNone plainEnv) plainStart openScript s ∧
      ∃ text, clientText plainEnv openScript "/script.move".toList = some text ∧
        s.globalState.textOf "/script.move".toList = some text := by
  have hrun : (openScript.foldlM (turn plainEnv) plainStart).map (fun s =>
      (s.fsEvents.length, decide ("/script.move".toList ∈ s.loopState.openedFiles))) =
        some (0, true) := by
    decide +kernel
  obtain ⟨s, hs, heq⟩ := Option.map_eq_some_iff.mp hrun
  simp only [Prod.mk.injEq, List.length_eq_zero_iff, decide_eq_true_eq] at heq
  have hrun : Run (turn plainEnv) (RevertsNone plainEnv) plainStart openScript s := by
    refine .of_foldlM (fun a ha _ _ resp _ _ hready => ?_) hs
    rcases List.mem_cons.mp ha with rfl | ha
    · cases hready
    · obtain rfl := List.mem_singleton.mp ha
      cases hready
  exact ⟨s, hrun, openDocuments_kept (Option.some_get _).symm hrun heq.1 heq.2⟩

end MoveTools.LanguageServer.OpenDocuments
