import MoveTools.LanguageServer.Diagnostics

namespace MoveTools.LanguageServer
open Compiler KeyStore

variable {δ : Type}

deriving instance DecidableEq for Config

deriving instance DecidableEq for RootDatabase

/-- The server with its pool of one thread. `started` counts the jobs that the thread has taken,
`responses` is the channel back to the loop, and `latest` the last batch that was put into it, with
the number of its job. -/
structure System (δ : Type) where
  server : Server δ
  started : ℕ := 0
  responses : List (List (FileDiagnostic δ)) := []
  latest : Option (ℕ × List (FileDiagnostic δ)) := none

/-- What happens next: the loop receives something, or the thread does its next job, with the
files in some order and with `check_file` as it answers at that moment. -/
inductive Action (δ : Type) where
  | lsp (disk : Disk) (message : ClientMessage)
  | fileSystem (disk : Disk)
  | compute (check : MoveFile → Option (Option (Text × δ))) (order : List Text)
  | deliver (disk : Disk)

variable (env : Env)

namespace System

/-- A job whose check panics sends nothing. -/
def finish (s : System δ) : Option (List (FileDiagnostic δ)) → System δ
  | some batch => { s with
      started := s.started + 1
      responses := s.responses ++ [batch]
      latest := some (s.started, batch) }
  | none => { s with started := s.started + 1 }

def step (s : System δ) : Action δ → Option (System δ)
  | .lsp disk message =>
    (turn env s.server ⟨disk, .lsp message⟩).map fun server => { s with server }
  | .fileSystem disk =>
    (turn env s.server ⟨disk, .fileSystem⟩).map fun server => { s with server }
  | .compute check order => do
    let job ← s.server.jobs[s.started]?
    if order.Nodup ∧ order.toFinset = job.files then
      pure (s.finish (computeFileDiagnostics check job.db order))
    else none
  | .deliver disk =>
    match s.responses with
    | [] => none
    | batch :: rest =>
      (turn env s.server ⟨disk, .response (.diagnostic batch)⟩).map fun server =>
        { s with server, responses := rest }

/-- The batch of the latest database state has been delivered. -/
def UpToDate (s : System δ) : Prop :=
  s.responses = [] ∧ ∃ job batch, s.server.jobs.getLast? = some job ∧
    job.db = s.server.globalState.db ∧ s.latest = some (s.server.jobs.length - 1, batch)

/-- What the client will show when the batches in the channel have been published. -/
def pendingView (s : System δ) : Text → Option (List δ) :=
  putAll (clientView s.server.sent) (s.responses.flatten.filterMap (publishes env))

end System

variable {env} {s s' : Server δ} {disk : Disk}

theorem removeFiles_sent {uris : List Text} (h : uris.foldlM (Server.removeFile env) s = some s') :
    s'.sent = s.sent := by
  apply Runs.foldlM_preserves (I := fun t => t.sent = s.sent) (fun _ hremove ht => ?_) h rfl
  obtain ⟨fpath, -, heq⟩ := Option.bind_eq_some_iff.mp hremove
  cases heq
  exact ht

theorem onNotification_view {not : Notification} (h : s.onNotification env not = some s') :
    clientView s'.sent = clientView s.sent := by
  cases not with
  | didOpen uri text =>
    obtain ⟨fpath, -, heq⟩ := Option.bind_eq_some_iff.mp h
    cases heq
    rfl
  | didChange uri contentChanges =>
    obtain ⟨fpath, -, h⟩ := Option.bind_eq_some_iff.mp h
    obtain ⟨text, -, heq⟩ := Option.bind_eq_some_iff.mp h
    cases heq
    rfl
  | didClose uri =>
    obtain ⟨fpath, -, heq⟩ := Option.bind_eq_some_iff.mp h
    cases heq
    rfl
  | didChangeConfiguration =>
    cases h
    exact clientView_append _ _
  | didChangeWatchedFiles uris => rw [removeFiles_sent h]
  | other =>
    cases h
    rfl

theorem onResponse_sent {resp : Response} (h : s.onResponse env disk resp = some s') :
    s'.sent = s.sent := by
  unfold Server.onResponse at h
  split at h
  · simp only at h
    split at h
    · cases h
      rfl
    · obtain ⟨config, -, h⟩ := Option.bind_eq_some_iff.mp h
      obtain ⟨state, -, heq⟩ := Option.bind_eq_some_iff.mp h
      cases heq
      rfl
    · cases h
      rfl
    · cases h
      rfl
  · cases h
    rfl

theorem turn_lsp_view {message : ClientMessage}
    (h : turn env s ⟨disk, .lsp message⟩ = some s') : clientView s'.sent = clientView s.sent := by
  cases message with
  | request =>
    cases h
    rfl
  | notification not => exact onNotification_view h
  | response resp => rw [onResponse_sent h]

theorem turn_fileSystem_sent (h : turn env s ⟨disk, .fileSystem⟩ = some s') :
    s'.sent = s.sent := by
  cases hqueue : s.fsEvents with
  | nil =>
    simp only [turn, hqueue] at h
    cases h
  | cons e rest =>
    simp only [turn, hqueue] at h
    cases h
    rfl

end MoveTools.LanguageServer
