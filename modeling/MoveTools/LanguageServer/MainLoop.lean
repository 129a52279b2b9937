import MoveTools.Library.Runs
import MoveTools.LanguageServer.GlobalState

namespace MoveTools.LanguageServer
open Compiler

inductive RequestId where
  | i32 (id : BitVec 32)
  | str (id : Text)
  deriving DecidableEq

inductive Method where
  | registerCapability
  | workspaceConfiguration
  deriving DecidableEq

/-- A response of the client. `result` holds the settings that `configs.get(0)` finds, if any. -/
structure Response where
  id : RequestId
  error : Option Text
  result : Option (Option Settings)

inductive Notification where
  | didOpen (uri text : Text)
  | didChange (uri : Text) (contentChanges : List Text)
  | didClose (uri : Text)
  | didChangeConfiguration
  | didChangeWatchedFiles (uris : List Text)
  | other

inductive ClientMessage where
  | request
  | notification (not : Notification)
  | response (resp : Response)

structure FileDiagnostic (δ : Type) where
  fpath : Text
  diagnostic : Option δ

inductive ResponseEvent (δ : Type) where
  | respond (id : RequestId)
  | diagnostic (fileDiags : List (FileDiagnostic δ))

inductive Event (δ : Type) where
  | response (task : ResponseEvent δ)
  | fileSystem (fsEvent : FileSystemEvent)
  | lsp (message : ClientMessage)

inductive ServerMessage (δ : Type) where
  | request (id : RequestId) (method : Method)
  | response (id : RequestId)
  | publishDiagnostics (uri : Text) (diagnostics : List δ)

structure LoopState where
  nextRequestId : BitVec 32 := 0
  openedFiles : Finset Text := ∅
  configurationRequestId : Option RequestId := none

/-- `self.next_request_id += 1`, which wraps around in a release build. -/
def LoopState.takeRequestId (s : LoopState) : RequestId × LoopState :=
  (.i32 (s.nextRequestId + 1), { s with nextRequestId := s.nextRequestId + 1 })

/-- A call of `compute_file_diagnostics` in the thread pool. -/
structure Job where
  db : RootDatabase
  files : Finset Text

/-- The state of the server, with the channel of file system events and all it has sent. -/
structure Server (δ : Type) where
  globalState : GlobalState
  loopState : LoopState := {}
  fsEvents : List FileSystemEvent := []
  jobs : List Job := []
  sent : List (ServerMessage δ) := []

variable {δ : Type} (env : Env) (disk : Disk)

namespace Server

def sendFsEvent (s : Server δ) (e : FileSystemEvent) : Server δ :=
  { s with fsEvents := s.fsEvents ++ [e] }

def addOpened (s : Server δ) (fpath : Text) : Server δ :=
  { s with loopState := { s.loopState with openedFiles := insert fpath s.loopState.openedFiles } }

def removeOpened (s : Server δ) (fpath : Text) : Server δ :=
  { s with loopState := { s.loopState with openedFiles := s.loopState.openedFiles.erase fpath } }

def requestConfiguration (s : Server δ) : Server δ :=
  let (id, loopState) := s.loopState.takeRequestId
  { s with
    loopState := { loopState with configurationRequestId := some id }
    sent := s.sent ++ [.request id .workspaceConfiguration] }

def removeFile (s : Server δ) (uri : Text) : Option (Server δ) := do
  let fpath ← env.uriToStr uri
  pure ((s.removeOpened fpath).sendFsEvent (.removeFile fpath))

/-- `none`: the turn ends with an error, and so does the loop. -/
def onNotification (s : Server δ) : Notification → Option (Server δ)
  | .didOpen uri text => do
    let fpath ← env.uriToStr uri
    pure ((s.sendFsEvent (.addFile ⟨fpath, text⟩)).addOpened fpath)
  | .didChange uri contentChanges => do
    let fpath ← env.uriToStr uri
    let newText ← contentChanges.getLast?
    pure ((s.sendFsEvent (.changeFile ⟨fpath, newText⟩)).addOpened fpath)
  | .didClose uri => do
    let fpath ← env.uriToStr uri
    pure (s.removeOpened fpath)
  | .didChangeConfiguration => some s.requestConfiguration
  | .didChangeWatchedFiles uris => uris.foldlM (removeFile env) s
  | .other => some s

def onResponse (s : Server δ) (resp : Response) : Option (Server δ) :=
  if s.loopState.configurationRequestId = some resp.id then
    let s := { s with loopState := { s.loopState with configurationRequestId := none } }
    match resp.error, resp.result with
    | some _, _ => some s
    | none, some (some newConfig) => do
      let config ← Config.default env
      let globalState ← initializeNewGlobalState disk (config.update env disk newConfig)
      pure { s with globalState }
    | none, some none => some s
    | none, none => some s
  else some s

def onTask (s : Server δ) : ResponseEvent δ → Option (Server δ)
  | .respond id => some { s with sent := s.sent ++ [.response id] }
  | .diagnostic fileDiags => do
    let messages ← fileDiags.mapM fun fileDiag => do
      let uri ← env.urlFromFilePath fileDiag.fpath
      pure (.publishDiagnostics uri fileDiag.diagnostic.toList)
    pure { s with sent := s.sent ++ messages }

def recomputeDiagnostics (s : Server δ) : Server δ :=
  let db := s.globalState.db
  { s with jobs := s.jobs ++ [⟨db, s.loopState.openedFiles ∪ db.moduleFiles⟩] }

def loopTurn (s : Server δ) : Event δ → Option (Server δ)
  | .response task => s.onTask env task
  | .fileSystem fsEvent =>
    some { s with globalState := s.globalState.updateFromEvents [fsEvent] }.recomputeDiagnostics
  | .lsp .request => some s
  | .lsp (.notification not) => s.onNotification env not
  | .lsp (.response resp) => s.onResponse env disk resp

end Server

/-- What `select!` receives from: the client, the thread pool, or the channel of file system
events. -/
inductive Ready (δ : Type) where
  | lsp (message : ClientMessage)
  | response (task : ResponseEvent δ)
  | fileSystem

/-- One round of the loop, with the disk as it is at this moment. -/
structure Input (δ : Type) where
  disk : Disk
  ready : Ready δ

/-- The body of `main_loop`. Nothing is received from an empty channel. -/
def turn (s : Server δ) (input : Input δ) : Option (Server δ) :=
  match input.ready with
  | .lsp message => s.loopTurn env input.disk (.lsp message)
  | .response task => s.loopTurn env input.disk (.response task)
  | .fileSystem =>
    match s.fsEvents with
    | [] => none
    | e :: rest => { s with fsEvents := rest }.loopTurn env input.disk (.fileSystem e)

/-- `run_server` up to the loop, with the settings of the initialisation request. -/
def runServer (initializationOptions : Option Settings) : Option (Server δ) := do
  let config ← Config.default env
  let config := match initializationOptions with
    | some value => config.update env disk value
    | none => config
  let globalState ← initializeNewGlobalState disk config
  pure { globalState, sent := [.request (.i32 1) .registerCapability] }

end MoveTools.LanguageServer
