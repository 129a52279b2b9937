import MoveTools.Library.Collect
import MoveTools.LanguageServer.GlobalState

namespace MoveTools.LanguageServer.ChangeLog
open Compiler

/-- What is handed to a formatter: it is total on these. -/
inductive DebugTree where
  | str (text : Text)
  | variant (name : String)
  | struct (name : String) (fields : List (String × DebugTree))
  | list (items : List DebugTree)
  | optional (value : Option DebugTree)

/-- `&text[0..min(text.len(), 55)]`, which panics inside of a character. -/
def preview (text : Text) : Option Text := text.slice 0 (min (Text.len text) 55)

def fileForm (type : String) (path text : Text) : Option DebugTree :=
  (preview text).map fun text =>
    .struct "RootChange" [("fpath", .str path), ("type", .str type.toList), ("text", .str text)]

def rootChangeForm : RootChange → Option DebugTree
  | .addFile path text => fileForm "AddFile" path text
  | .removeFile path =>
    some (.struct "RootChange" [("fpath", .str path), ("type", .str "RemoveFile".toList)])
  | .changeFile path text => fileForm "ChangeFile" path text

def dialectForm : DialectName → DebugTree
  | .libra => .variant "Libra"
  | .dfinance => .variant "DFinance"
  | .polkadot => .variant "Polkadot"

def addressForm (address : ProvidedAccountAddress) : DebugTree :=
  .struct "ProvidedAccountAddress" [("original", .str address.original),
    ("normalized_original", .str address.normalizedOriginal), ("lowered", .str address.lowered)]

def configForm (config : Config) : DebugTree :=
  .struct "Config" [("dialect", dialectForm config.dialectName),
    ("stdlib_folder", .optional (config.stdlibFolder.map .str)),
    ("module_folders", .list (config.modulesFolders.map .str)),
    ("sender_address", addressForm config.senderAddress)]

def changeForm (change : AnalysisChange) : Option DebugTree :=
  (change.trackedFilesChanged.mapM rootChangeForm).map fun tracked =>
    .struct "AnalysisChange" [("tracked_files_changed", .list tracked),
      ("config_changed", .optional (change.configChanged.map configForm))]

/-- The levels that are enabled, with `{:#?}`, and `{:?}` of a text. -/
structure Logger where
  info : Bool
  warn : Bool
  pretty : DebugTree → Text
  quoted : Text → Text

section
variable (logger : Logger)

def warnings (files : Files) : RootChange → List Text
  | .removeFile path =>
    if logger.warn ∧ files.lookup path = none then
      ["RemoveFile: file ".toList ++ logger.quoted path ++ " does not exist".toList]
    else []
  | _ => []

def applyRootChange (x : Files × List Text) (rootChange : RootChange) : Files × List Text :=
  (RootDatabase.applyRootChange x.1 rootChange, x.2 ++ warnings logger x.1 rootChange)

/-- The database after a change, and the lines that have been logged. -/
def applyChange (db : RootDatabase) (lines : List Text) (change : AnalysisChange) :
    RootDatabase × List Text :=
  let x := change.trackedFilesChanged.foldl (applyRootChange logger) (db.availableFiles, lines)
  (⟨change.configChanged.getD db.config, x.1⟩, x.2)

/-- `none` stands for a panic. -/
def updateFromEvents (state : GlobalState) (fsEvents : List FileSystemEvent) :
    Option (GlobalState × List Text) := do
  let change := fsEvents.foldl GlobalState.recordChange {}
  let lines ←
    if logger.info then (changeForm change).map fun form =>
      ["Applying change to the in-memory files db:\n".toList ++ logger.pretty form]
    else some []
  let (db, lines) := applyChange logger state.db lines change
  pure (⟨db⟩, lines)

/-- All events are applied, and what is logged of them can be formatted. -/
structure Applied (state : GlobalState) (fsEvents : List FileSystemEvent) : Prop where
  updated : ∃ lines, updateFromEvents logger state fsEvents =
    some (state.updateFromEvents fsEvents, lines)
  formatted : logger.info →
    ∃ form, changeForm (fsEvents.foldl GlobalState.recordChange {}) = some form

end

/-- Byte 55 of the text, if it has more, is where a character starts. -/
def CutsWell (text : Text) : Prop := Text.len text ≤ 55 ∨ text.isCharBoundary 55

instance (text : Text) : Decidable (CutsWell text) := inferInstanceAs (Decidable (_ ∨ _))

theorem slice_zero (text : Text) (n : ℕ) :
    text.slice 0 n = (Text.splitBytes n text).map Prod.fst := by
  have hstart : Text.splitBytes 0 text = some ([], text) :=
    Text.splitBytes_eq_some.mpr ⟨rfl, rfl⟩
  rw [Text.slice, if_pos (Nat.zero_le n), hstart, Option.bind_eq_bind, Option.bind_some,
    Nat.sub_zero]
  dsimp only
  cases Text.splitBytes n text <;> rfl

theorem preview_isSome (text : Text) : (preview text).isSome ↔ CutsWell text := by
  rw [preview, slice_zero, Option.isSome_map]
  by_cases hlen : Text.len text ≤ 55
  · have hall : Text.splitBytes (Text.len text) text = some (text, []) :=
      Text.splitBytes_eq_some.mpr ⟨(List.append_nil text).symm, rfl⟩
    rw [Nat.min_eq_left hlen, hall]
    exact iff_of_true rfl (.inl hlen)
  · rw [Nat.min_eq_right (by omega)]
    exact (or_iff_right hlen).symm

def newText : RootChange → Option Text
  | .addFile _ text => some text
  | .changeFile _ text => some text
  | .removeFile _ => none

theorem rootChangeForm_isSome (change : RootChange) :
    (rootChangeForm change).isSome ↔ ∀ text ∈ newText change, CutsWell text := by
  cases change with
  | addFile path text => simp [rootChangeForm, fileForm, newText, preview_isSome]
  | changeFile path text => simp [rootChangeForm, fileForm, newText, preview_isSome]
  | removeFile path => simp [rootChangeForm, newText]

theorem trackedFilesChanged_texts (fsEvents : List FileSystemEvent) :
    (fsEvents.foldl GlobalState.recordChange {}).trackedFilesChanged.map newText =
      fsEvents.map FileSystemEvent.text := by
  induction fsEvents with
  | nil => rfl
  | cons e fsEvents ih =>
    rw [List.foldl_cons, GlobalState.trackedFilesChanged_foldl, List.map_append, ih]
    cases e <;> rfl

theorem changeForm_isSome (fsEvents : List FileSystemEvent) :
    (changeForm (fsEvents.foldl GlobalState.recordChange {})).isSome ↔
      ∀ e ∈ fsEvents, ∀ text ∈ e.text, CutsWell text := by
  rw [changeForm, Option.isSome_map, Collect.mapM_isSome]
  simp only [rootChangeForm_isSome]
  have htexts := trackedFilesChanged_texts fsEvents
  constructor
  · intro h e he
    have hmem := List.mem_map_of_mem (f := FileSystemEvent.text) he
    rw [← htexts] at hmem
    obtain ⟨change, hchange, heq⟩ := List.mem_map.mp hmem
    rw [← heq]
    exact h change hchange
  · intro h change hchange
    have hmem := List.mem_map_of_mem (f := newText) hchange
    rw [htexts] at hmem
    obtain ⟨e, he, heq⟩ := List.mem_map.mp hmem
    rw [← heq]
    exact h e he

section
variable (logger : Logger)

theorem foldl_applyRootChange (changes : List RootChange) (x : Files × List Text) :
    (changes.foldl (applyRootChange logger) x).1 =
      changes.foldl RootDatabase.applyRootChange x.1 := by
  induction changes generalizing x with
  | nil => rfl
  | cons change changes ih => exact ih (applyRootChange logger x change)

theorem applyChange_fst (db : RootDatabase) (lines : List Text) (change : AnalysisChange) :
    (applyChange logger db lines change).1 = db.applyChange change := by
  rw [applyChange, RootDatabase.applyChange]
  exact congrArg _ (foldl_applyRootChange logger change.trackedFilesChanged _)

theorem updateFromEvents_eq_some (state : GlobalState) (fsEvents : List FileSystemEvent) :
    (∃ lines, updateFromEvents logger state fsEvents =
        some (state.updateFromEvents fsEvents, lines)) ↔
      (logger.info → (changeForm (fsEvents.foldl GlobalState.recordChange {})).isSome) := by
  have hdb := fun lines => applyChange_fst logger state.db lines
    (fsEvents.foldl GlobalState.recordChange {})
  have hstate : ∀ lines,
      (⟨(applyChange logger state.db lines (fsEvents.foldl GlobalState.recordChange {})).1⟩ :
        GlobalState) = state.updateFromEvents fsEvents := fun lines => congrArg _ (hdb lines)
  rw [updateFromEvents]
  cases hinfo : logger.info with
  | false => exact iff_of_true ⟨_, by rw [← hstate]; rfl⟩ fun h => by cases h
  | true =>
    cases changeForm (fsEvents.foldl GlobalState.recordChange {}) with
    | none => simp
    | some form => exact iff_of_true ⟨_, by rw [← hstate]; rfl⟩ fun _ => rfl

/-- The logged form cuts each text at a fixed byte. -/
theorem events_applied_iff (state : GlobalState) (fsEvents : List FileSystemEvent) :
    Applied logger state fsEvents ↔
      (logger.info → ∀ e ∈ fsEvents, ∀ text ∈ e.text, CutsWell text) := by
  rw [← changeForm_isSome, ← updateFromEvents_eq_some logger state]
  constructor
  · exact fun h => h.updated
  · intro h
    refine ⟨h, fun hinfo => ?_⟩
    exact Option.isSome_iff_exists.mp ((updateFromEvents_eq_some logger state fsEvents).mp h hinfo)

end

def infoLogger : Logger := ⟨true, true, fun _ => [], id⟩

/-- 54 bytes, and a character of two. -/
def accentedText : Text := List.replicate 54 'a' ++ ['é']

def emptyState : GlobalState := ⟨.new ⟨.libra, none, [], .default⟩⟩

theorem accented_panics :
    ¬Applied infoLogger emptyState [.addFile ⟨"/a/x.move".toList, accentedText⟩] := by
  intro h
  obtain ⟨form, hform⟩ := h.formatted rfl
  have hnone : changeForm ([FileSystemEvent.addFile ⟨"/a/x.move".toList, accentedText⟩].foldl
      GlobalState.recordChange {}) = none := by rfl
  rw [hnone] at hform
  cases hform

end MoveTools.LanguageServer.ChangeLog
