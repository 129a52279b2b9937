import MoveTools.Library.KeyStore
import MoveTools.LanguageServer.MainLoop

namespace MoveTools.LanguageServer
open Compiler KeyStore

variable {δ : Type}

/-- The check of one file, unless it is untracked. -/
def checkTracked (check : MoveFile → Option (Option (Text × δ))) (db : RootDatabase)
    (fpath : Text) : Option (Option (Text × δ)) :=
  match db.availableFiles.lookup fpath with
  | some text => check ⟨fpath, text⟩
  | none => some none

/-- `compute_file_diagnostics`, with the files in the order in which the set is visited. `check` is
`Analysis::check_file`, where `none` is a panic: then nothing is sent. -/
def computeFileDiagnostics (check : MoveFile → Option (Option (Text × δ))) (db : RootDatabase) :
    List Text → Option (List (FileDiagnostic δ))
  | [] => some []
  | fpath :: files => do
    let reported ← checkTracked check db fpath
    let diagnostics ← computeFileDiagnostics check db files
    -- clear previous diagnostics for file
    pure (⟨fpath, none⟩ :: (reported.map fun d => ⟨d.1, some d.2⟩).toList ++ diagnostics)

/-- What a message does to the lists of the client. -/
def published : ServerMessage δ → Option (Write Text (List δ))
  | .publishDiagnostics uri diagnostics => some (uri, some diagnostics)
  | _ => none

/-- The list in the last `PublishDiagnostics` for each URI. -/
def clientView (sent : List (ServerMessage δ)) : Text → Option (List δ) :=
  putAll (fun _ => none) (sent.filterMap published)

def publishes (env : Env) (fileDiag : FileDiagnostic δ) : Option (Write Text (List δ)) :=
  (env.urlFromFilePath fileDiag.fpath).map fun uri => (uri, some fileDiag.diagnostic.toList)

theorem clientView_append (sent messages : List (ServerMessage δ)) :
    clientView (sent ++ messages) = putAll (clientView sent) (messages.filterMap published) := by
  rw [clientView, List.filterMap_append, putAll_append]
  rfl

variable {env : Env} {s s' : Server δ}

/-- The message for an entry; `unwrap` panics on a path that is no URI. -/
def message (env : Env) (fileDiag : FileDiagnostic δ) : Option (ServerMessage δ) := do
  let uri ← env.urlFromFilePath fileDiag.fpath
  pure (.publishDiagnostics uri fileDiag.diagnostic.toList)

theorem mapM_publishes (fileDiags : List (FileDiagnostic δ)) :
    fileDiags.mapM (publishes env) =
      (fileDiags.mapM (message env)).map (·.filterMap published) := by
  induction fileDiags with
  | nil => rfl
  | cons d fileDiags ih =>
    rw [List.mapM_cons, List.mapM_cons, ih, publishes, message]
    cases env.urlFromFilePath d.fpath with
    | none => rfl
    | some uri => cases fileDiags.mapM (message env) <;> rfl

theorem clientView_onTask (fileDiags : List (FileDiagnostic δ)) :
    (s.onTask env (.diagnostic fileDiags)).map (fun s' => clientView s'.sent) =
      (fileDiags.mapM (publishes env)).map (putAll (clientView s.sent)) := by
  have htask : s.onTask env (.diagnostic fileDiags) =
      (fileDiags.mapM (message env)).map fun messages =>
        { s with sent := s.sent ++ messages } := by
    cases hm : fileDiags.mapM (message env) with
    | none =>
      change (fileDiags.mapM (message env)).bind _ = _
      rw [hm]
      rfl
    | some messages =>
      change (fileDiags.mapM (message env)).bind _ = _
      rw [hm]
      rfl
  rw [htask, mapM_publishes, Option.map_map, Option.map_map]
  congr 1
  funext messages
  exact clientView_append _ _

def entries (check : MoveFile → Option (Text × δ)) (db : RootDatabase) (fpath : Text) :
    List (FileDiagnostic δ) :=
  let reported := (db.availableFiles.lookup fpath).bind fun text => check ⟨fpath, text⟩
  ⟨fpath, none⟩ :: (reported.map fun d => ⟨d.1, some d.2⟩).toList

theorem computeFileDiagnostics_eq (check : MoveFile → Option (Text × δ)) (db : RootDatabase)
    (files : List Text) : computeFileDiagnostics (fun file => some (check file)) db files =
      some (files.flatMap (entries check db)) := by
  induction files with
  | nil => rfl
  | cons fpath files ih =>
    rw [computeFileDiagnostics, ih, List.flatMap_cons, entries, checkTracked]
    cases db.availableFiles.lookup fpath <;> rfl

end MoveTools.LanguageServer
