import MoveTools.Compiler.Checker
import MoveTools.Compiler.Location
import MoveTools.LanguageServer.Diagnostics

namespace MoveTools.LanguageServer
open Compiler Compiler.Location

structure Range where
  start : Position
  stop : Position
  deriving DecidableEq

structure DiagnosticRelatedInformation where
  uri : Text
  range : Range
  message : Text

structure Diagnostic where
  range : Range
  message : Text
  relatedInformation : Option (List DiagnosticRelatedInformation) := none

inductive RangeError where
  | notAvailable (file : Text)
  | location (e : LocationError)

def RangeError.ofLocation {α : Type} : Except LocationError α → Except RangeError α
  | .ok a => .ok a
  | .error e => .error (.location e)

namespace RootDatabase

variable (env : Env) (db : RootDatabase)

def locToRange (loc : Loc) : Except RangeError Range :=
  match db.availableFiles.lookup loc.file with
  | none => .error (.notAvailable loc.file)
  | some text => do
    let file := File.new text
    let start ← RangeError.ofLocation (file.position loc.span.start)
    let stop ← RangeError.ofLocation (file.position loc.span.stop)
    pure ⟨start, stop⟩

/-- The related information of the further parts; `none` where a path is no URI. -/
def relatedInfo : Error → Option (Except RangeError (List DiagnosticRelatedInformation))
  | [] => some (.ok [])
  | (loc, msg) :: parts =>
    match db.locToRange loc with
    | .error e => some (.error e)
    | .ok range => do
      let uri ← env.urlFromFilePath loc.file
      let items ← relatedInfo parts
      pure (items.map (⟨uri, range, msg⟩ :: ·))

/-- The file that is blamed, with its diagnostic; `none` stands for a panic. -/
def makeDiagnostic : Error → Option (Except RangeError (Text × Diagnostic))
  | [] => none
  | (loc, msg) :: parts =>
    match db.locToRange loc with
    | .error e => some (.error e)
    | .ok range =>
      if parts = [] then some (.ok (loc.file, { range, message := msg }))
      else (db.relatedInfo env parts).map fun items => items.map fun items =>
        (loc.file, { range, message := msg, relatedInformation := some items })

end RootDatabase

/-- One check finds the disk as it is at that moment, and the module files in the order in which
their `HashMap` yields them. -/
structure Moment where
  disk : Disk
  modules : List Text

def Moment.Orders (now : Moment) (db : RootDatabase) : Prop :=
  now.modules.Nodup ∧ now.modules.toFinset = db.moduleFiles

instance (now : Moment) (db : RootDatabase) : Decidable (now.Orders db) :=
  inferInstanceAs (Decidable (_ ∧ _))

structure Analysis where
  db : RootDatabase

namespace Analysis

variable (lang : MoveLang) (fuel : ℕ) (env : Env) (analysis : Analysis) (now : Moment)

def readStdlibFiles : List MoveFile :=
  match analysis.db.config.stdlibFolder with
  | some folder => (now.disk.loadMoveFiles [folder]).getD []
  | none => []

def trackedModules : List MoveFile :=
  now.modules.filterMap fun name =>
    (analysis.db.availableFiles.lookup name).map fun text => ⟨name, text⟩

def deps (currentFile : MoveFile) : List MoveFile :=
  (analysis.readStdlibFiles now ++ analysis.trackedModules now).filter
    (·.name ≠ currentFile.name)

def check (currentFile : MoveFile) : Option (Except Errors Unit) :=
  MoveChecker.check lang fuel (env.getDialect analysis.db.config.dialectName)
    (some analysis.db.config.senderAddress) [currentFile] (analysis.deps now currentFile)

/-- `panic!` where an error cannot be converted. -/
def toDiagnostic (error : Error) : Option (Text × Diagnostic) :=
  match analysis.db.makeDiagnostic env error with
  | some (.ok d) => some d
  | some (.error _) => none
  | none => none

def checkFileInner (currentFile : MoveFile) : Option (Except (List (Text × Diagnostic)) Unit) :=
  match analysis.check lang fuel env now currentFile with
  | some (.ok ()) => some (.ok ())
  | some (.error errors) => (errors.mapM (analysis.toDiagnostic env)).map .error
  | none => none

/-- `ds.remove(0)` panics where there are no errors. -/
def checkFile (file : MoveFile) : Option (Option (Text × Diagnostic)) :=
  match analysis.checkFileInner lang fuel env now file with
  | some (.ok ()) => some none
  | some (.error []) => none
  | some (.error (d :: _)) => some (some d)
  | none => none

end Analysis

namespace RootDatabase

variable {env : Env} {db : RootDatabase}

/-- Every part of the error has a range. -/
def Located (db : RootDatabase) (error : Error) : Prop :=
  ∀ x ∈ error, ∃ range, db.locToRange x.1 = .ok range

theorem locToRange_ok {loc : Loc} {text : Text}
    (htext : db.availableFiles.lookup loc.file = some text) (hlen : Text.len text < 2 ^ 32 - 1)
    (hstart : text.isCharBoundary loc.span.start) (hstop : text.isCharBoundary loc.span.stop) :
    ∃ range, db.locToRange loc = .ok range := by
  obtain ⟨start, hstart⟩ := File.position_ok hlen hstart
  obtain ⟨stop, hstop⟩ := File.position_ok hlen hstop
  refine ⟨⟨start, stop⟩, ?_⟩
  simp only [locToRange, htext, hstart, hstop]
  rfl

theorem relatedInfo_ne_error {parts : Error} (h : db.Located parts) (e : RangeError) :
    db.relatedInfo env parts ≠ some (.error e) := by
  induction parts with
  | nil => exact fun he => by cases he
  | cons x parts ih =>
    obtain ⟨range, hrange⟩ := h x List.mem_cons_self
    have hparts := ih fun y hy => h y (List.mem_cons_of_mem x hy)
    intro he
    simp only [relatedInfo, hrange] at he
    obtain ⟨uri, -, he⟩ := Option.bind_eq_some_iff.mp he
    obtain ⟨items, hitems, he⟩ := Option.bind_eq_some_iff.mp he
    cases items with
    | error e' =>
      cases he
      exact hparts hitems
    | ok items => cases he

theorem Located.makeDiagnostic_ne_error {error : Error} (h : db.Located error) (e : RangeError) :
    db.makeDiagnostic env error ≠ some (.error e) := by
  cases error with
  | nil => exact fun he => by cases he
  | cons x parts =>
    obtain ⟨range, hrange⟩ := h x List.mem_cons_self
    have hparts : db.Located parts := fun y hy => h y (List.mem_cons_of_mem x hy)
    intro he
    simp only [makeDiagnostic, hrange] at he
    split at he
    · cases he
    · obtain ⟨items, hitems, he⟩ := Option.map_eq_some_iff.mp he
      cases items with
      | error e' =>
        cases he
        exact relatedInfo_ne_error hparts _ hitems
      | ok items => cases he

end RootDatabase
end MoveTools.LanguageServer
