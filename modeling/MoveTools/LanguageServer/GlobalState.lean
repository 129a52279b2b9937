import Mathlib.Data.Finmap
import MoveTools.Compiler.Parser

namespace MoveTools.LanguageServer
open Compiler

inductive DialectName where
  | libra
  | dfinance
  | polkadot
  deriving DecidableEq, Repr

/-- What is fixed from outside: `DialectName::get_dialect`, and the paths of URIs and back. -/
structure Env where
  getDialect : DialectName → Dialect
  uriToStr : Text → Option Text
  urlFromFilePath : Text → Option Text

/-- The file system at one moment. `load_move_files` fails on paths that do not exist. -/
structure Disk where
  pathExists : Text → Bool
  loadMoveFiles : List Text → Option (List MoveFile)

structure Config where
  dialectName : DialectName
  stdlibFolder : Option Text
  modulesFolders : List Text
  senderAddress : ProvidedAccountAddress

/-- What `serde` reads at the pointers of a settings value. -/
structure Settings where
  dialect : Option DialectName
  stdlibFolder : Option Text
  modulesFolders : Option (List Text)
  senderAddress : Option Text

variable (env : Env) (disk : Disk)

/-- `unwrap` panics where the dialect refuses its own default. -/
def Config.default : Option Config := do
  let senderAddress ← (env.getDialect .libra).normalizeAccountAddress "0x1".toList
  pure ⟨.libra, none, [], senderAddress⟩

def Config.update (config : Config) (value : Settings) : Config :=
  let dialectName := value.dialect.getD config.dialectName
  { dialectName
    stdlibFolder := value.stdlibFolder.filter disk.pathExists
    modulesFolders := (value.modulesFolders.getD []).filter disk.pathExists
    senderAddress :=
      match value.senderAddress with
      | none => .default
      | some address => ((env.getDialect dialectName).normalizeAccountAddress address).getD .default }

/-- A `HashMap<String, String>`. -/
abbrev Files := Finmap fun _ : Text => Text

inductive RootChange where
  | addFile (path text : Text)
  | changeFile (path text : Text)
  | removeFile (path : Text)

structure AnalysisChange where
  trackedFilesChanged : List RootChange := []
  configChanged : Option Config := none

namespace AnalysisChange

def addFile (change : AnalysisChange) (fname text : Text) : AnalysisChange :=
  { change with trackedFilesChanged := change.trackedFilesChanged ++ [.addFile fname text] }

def updateFile (change : AnalysisChange) (fname text : Text) : AnalysisChange :=
  { change with trackedFilesChanged := change.trackedFilesChanged ++ [.changeFile fname text] }

def removeFile (change : AnalysisChange) (fname : Text) : AnalysisChange :=
  { change with trackedFilesChanged := change.trackedFilesChanged ++ [.removeFile fname] }

end AnalysisChange

structure RootDatabase where
  config : Config
  availableFiles : Files

namespace RootDatabase

def new (config : Config) : RootDatabase := ⟨config, ∅⟩

def applyRootChange (files : Files) : RootChange → Files
  | .addFile path text => files.insert path text
  | .changeFile path text => files.insert path text
  | .removeFile path => files.erase path

def applyChange (db : RootDatabase) (change : AnalysisChange) : RootDatabase where
  config := change.configChanged.getD db.config
  availableFiles := change.trackedFilesChanged.foldl applyRootChange db.availableFiles

def isFpathForAModule (db : RootDatabase) (fpath : Text) : Bool :=
  db.config.modulesFolders.any fun folder => folder.isPrefixOf fpath

def moduleFiles (db : RootDatabase) : Finset Text :=
  db.availableFiles.keys.filter (db.isFpathForAModule ·)

end RootDatabase

inductive FileSystemEvent where
  | addFile (file : MoveFile)
  | removeFile (fpath : Text)
  | changeFile (file : MoveFile)

namespace FileSystemEvent

def path : FileSystemEvent → Text
  | addFile file => file.name
  | removeFile fpath => fpath
  | changeFile file => file.name

def text : FileSystemEvent → Option Text
  | addFile file => some file.content
  | removeFile _ => none
  | changeFile file => some file.content

end FileSystemEvent

structure GlobalState where
  db : RootDatabase

namespace GlobalState

def recordChange (change : AnalysisChange) : FileSystemEvent → AnalysisChange
  | .addFile file => change.addFile file.name file.content
  | .changeFile file => change.updateFile file.name file.content
  | .removeFile fpath => change.removeFile fpath

def updateFromEvents (state : GlobalState) (fsEvents : List FileSystemEvent) : GlobalState where
  db := state.db.applyChange (fsEvents.foldl recordChange {})

def new (config : Config) (initialFsEvents : List FileSystemEvent) : GlobalState :=
  updateFromEvents ⟨.new config⟩ initialFsEvents

def textOf (state : GlobalState) (path : Text) : Option Text := state.db.availableFiles.lookup path

end GlobalState

/-- The files under the folders of a configuration; `none` where `unwrap` panics. -/
def initialFiles (config : Config) : Option (List MoveFile) := do
  let stdlib ← match config.stdlibFolder with
    | some folder => disk.loadMoveFiles [folder]
    | none => some []
  let modules ← disk.loadMoveFiles config.modulesFolders
  pure (stdlib ++ modules)

def initializeNewGlobalState (config : Config) : Option GlobalState :=
  (initialFiles disk config).map fun files => .new config (files.map .addFile)

namespace GlobalState

theorem trackedFilesChanged_foldl (fsEvents : List FileSystemEvent) (change : AnalysisChange) :
    (fsEvents.foldl recordChange change).trackedFilesChanged =
      change.trackedFilesChanged ++
        (fsEvents.foldl recordChange ({} : AnalysisChange)).trackedFilesChanged := by
  induction fsEvents generalizing change with
  | nil => simp
  | cons e fsEvents ih =>
    rw [List.foldl_cons, List.foldl_cons, ih, ih (recordChange {} e)]
    cases e <;> simp [recordChange, AnalysisChange.addFile, AnalysisChange.updateFile,
      AnalysisChange.removeFile]

theorem textOf_updateFromEvents_cons (state : GlobalState) (e : FileSystemEvent)
    (fsEvents : List FileSystemEvent) (p : Text) :
    (state.updateFromEvents (e :: fsEvents)).textOf p =
      ((state.updateFromEvents [e]).updateFromEvents fsEvents).textOf p := by
  simp only [textOf, updateFromEvents, RootDatabase.applyChange, List.foldl_cons, List.foldl_nil]
  rw [trackedFilesChanged_foldl, List.foldl_append]

@[simp] theorem updateFromEvents_nil (state : GlobalState) : state.updateFromEvents [] = state := rfl

theorem textOf_updateFromEvents_singleton (state : GlobalState) (e : FileSystemEvent) (p : Text) :
    (state.updateFromEvents [e]).textOf p = if e.path = p then e.text else state.textOf p := by
  by_cases hp : e.path = p
  · subst hp
    rw [if_pos rfl]
    cases e with
    | addFile file => exact Finmap.lookup_insert _
    | removeFile fpath => exact Finmap.lookup_erase ..
    | changeFile file => exact Finmap.lookup_insert _
  · rw [if_neg hp]
    cases e with
    | addFile file => exact Finmap.lookup_insert_of_ne _ (Ne.symm hp)
    | removeFile fpath => exact Finmap.lookup_erase_ne (Ne.symm hp)
    | changeFile file => exact Finmap.lookup_insert_of_ne _ (Ne.symm hp)

theorem textOf_updateFromEvents (state : GlobalState) (fsEvents : List FileSystemEvent) (p : Text) :
    (state.updateFromEvents fsEvents).textOf p =
      match fsEvents.reverse.find? (·.path = p) with
      | some e => e.text
      | none => state.textOf p := by
  induction fsEvents generalizing state with
  | nil => rfl
  | cons e fsEvents ih =>
    rw [textOf_updateFromEvents_cons, ih, List.reverse_cons, List.find?_append]
    cases fsEvents.reverse.find? (·.path = p) with
    | some e' => rfl
    | none =>
      rw [textOf_updateFromEvents_singleton]
      by_cases hp : e.path = p <;> simp [hp]

end GlobalState
end MoveTools.LanguageServer
