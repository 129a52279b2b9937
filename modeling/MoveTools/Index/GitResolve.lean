import MoveTools.Library.Effects
import MoveTools.Library.KeyStore
import MoveTools.Index.Build

namespace MoveTools.Index.GitResolve
open Build Effects Runs

/-- What of `git2` and of the file system is called. All of it may fail, and what it has changed by
then stays. -/
structure Git2 (σ : Type) where
  Repository : Type
  Reference : Type
  Oid : Type
  Commit : Type
  Object : Type
  pathExists : Text → σ → Bool
  clone : Text → Text → EStateM String σ Repository
  head : Repository → EStateM String σ Reference
  target : Reference → Option Oid
  oidFromStr : Text → Except String Oid
  findCommit : Repository → Oid → EStateM String σ Commit
  branch : Repository → Text → Commit → Bool → EStateM String σ Unit
  revparseSingle : Repository → Text → EStateM String σ Object
  checkoutTree : Repository → Object → EStateM String σ Unit
  setHead : Repository → Text → EStateM String σ Unit

section
variable {σ : Type} (env : Env) (g : Git2 σ) (deps : Text)

def repoPath (git : Git) : Text := deps ++ '/' :: git.makeLocalName env

def clone (git : Git) (path : Text) : EStateM String σ g.Repository :=
  (g.clone git.git path).adaptExcept fun err =>
    "Failed to clone repository :[" ++ String.ofList git.git ++ "]:" ++ err

def headsRef (name : Text) : Text := "refs/heads/".toList ++ name

/-- What is done with the commit of a branch and with that of a revision. -/
def switchTo (repo : g.Repository) (name : Text) (commit : g.Commit) : EStateM String σ Unit := do
  g.branch repo name commit false
  let obj ← g.revparseSingle repo (headsRef name)
  g.checkoutTree repo obj
  g.setHead repo (headsRef name)

def takeTarget (git : Git) (head : g.Reference) : EStateM String σ g.Oid :=
  match g.target head with
  | some oid => pure oid
  | none => throw ("Failed to take repo " ++ String.ofList git.git ++ " head.")

def parseOid (rev : Text) : EStateM String σ g.Oid :=
  match g.oidFromStr rev with
  | .ok oid => pure oid
  | .error e => throw e

def checkOut (git : Git) (repo : g.Repository) : EStateM String σ Unit :=
  match git.branch with
  | some branchName => do
    let head ← g.head repo
    let oid ← takeTarget g git head
    let commit ← g.findCommit repo oid
    switchTo g repo branchName commit
  | none =>
    match git.rev with
    | some rev => do
      let oid ← parseOid g rev
      let commit ← g.findCommit repo oid
      switchTo g repo rev commit
    | none => pure ()

def resolve (git : Git) : EStateM String σ Text := do
  let s ← get
  if g.pathExists (repoPath env deps git) s then pure (repoPath env deps git)
  else do
    let repo ← clone g git (repoPath env deps git)
    checkOut g git repo
    pure (repoPath env deps git)

variable {env g deps} {git : Git} {s s' s1 s2 s3 s4 : σ} {repo : g.Repository}

theorem resolve_present (h : g.pathExists (repoPath env deps git) s) :
    resolve env g deps git s = .ok (repoPath env deps git) s := by
  show (if g.pathExists (repoPath env deps git) s then _ else _ : EStateM String σ Text) s = _
  rw [if_pos h]
  rfl

theorem resolve_absent (h : ¬g.pathExists (repoPath env deps git) s) :
    resolve env g deps git s = (clone g git (repoPath env deps git) >>= fun repo =>
      checkOut g git repo >>= fun _ => pure (repoPath env deps git)) s := by
  show (if g.pathExists (repoPath env deps git) s then _ else _ : EStateM String σ Text) s = _
  rw [if_neg h]

theorem clone_ok {path : Text} (h : g.clone git.git path s = .ok repo s') :
    clone g git path s = .ok repo s' := by
  unfold clone EStateM.adaptExcept
  rw [h]

theorem clone_error {path : Text} {e : String} (h : g.clone git.git path s = .error e s') :
    ∃ e', clone g git path s = .error e' s' := by
  unfold clone EStateM.adaptExcept
  rw [h]
  exact ⟨_, rfl⟩

theorem switchTo_ok {name : Text} {commit : g.Commit} {obj : g.Object}
    (hbranch : g.branch repo name commit false s = .ok () s1)
    (hrevparse : g.revparseSingle repo (headsRef name) s1 = .ok obj s2)
    (hcheckout : g.checkoutTree repo obj s2 = .ok () s3)
    (hhead : g.setHead repo (headsRef name) s3 = .ok () s4) :
    switchTo g repo name commit s = .ok () s4 := by
  unfold switchTo
  rw [bind_ok hbranch, bind_ok hrevparse, bind_ok hcheckout, hhead]

theorem switchTo_error {name : Text} {commit : g.Commit} {e : String}
    (hbranch : g.branch repo name commit false s = .error e s1) :
    switchTo g repo name commit s = .error e s1 := by
  unfold switchTo
  rw [bind_error hbranch]

theorem checkOut_branch {name : Text} {head : g.Reference} {oid : g.Oid} {commit : g.Commit}
    (hname : git.branch = some name) (hhead : g.head repo s = .ok head s1)
    (htarget : g.target head = some oid) (hfind : g.findCommit repo oid s1 = .ok commit s2) :
    checkOut g git repo s = switchTo g repo name commit s2 := by
  have hoid : takeTarget g git head = pure oid := by
    unfold takeTarget
    rw [htarget]
  unfold checkOut
  rw [hname]
  show (g.head repo >>= _) s = _
  rw [bind_ok hhead, hoid, pure_bind, bind_ok hfind]

theorem checkOut_parsed {rev : Text} {oid : g.Oid} (hname : git.branch = none)
    (hrev : git.rev = some rev) (hoid : g.oidFromStr rev = .ok oid) :
    checkOut g git repo s =
      (g.findCommit repo oid >>= fun commit => switchTo g repo rev commit) s := by
  have hparse : parseOid g rev = pure oid := by
    unfold parseOid
    rw [hoid]
  unfold checkOut
  rw [hname, hrev]
  show (parseOid g rev >>= _) s = _
  rw [hparse, pure_bind]

theorem checkOut_rev {rev : Text} {oid : g.Oid} {commit : g.Commit} (hname : git.branch = none)
    (hrev : git.rev = some rev) (hoid : g.oidFromStr rev = .ok oid)
    (hfind : g.findCommit repo oid s = .ok commit s1) :
    checkOut g git repo s = switchTo g repo rev commit s1 := by
  rw [checkOut_parsed hname hrev hoid, bind_ok hfind]

theorem checkOut_rev_unknown {rev : Text} {oid : g.Oid} {e : String} (hname : git.branch = none)
    (hrev : git.rev = some rev) (hoid : g.oidFromStr rev = .ok oid)
    (hfind : g.findCommit repo oid s = .error e s1) : checkOut g git repo s = .error e s1 := by
  rw [checkOut_parsed hname hrev hoid, bind_error hfind]

theorem checkOut_rev_unread {rev : Text} {e : String} (hname : git.branch = none)
    (hrev : git.rev = some rev) (hoid : g.oidFromStr rev = .error e) :
    checkOut g git repo s = .error e s := by
  have hparse : parseOid g rev = throw e := by
    unfold parseOid
    rw [hoid]
  unfold checkOut
  rw [hname, hrev]
  show (parseOid g rev >>= _) s = _
  rw [hparse]
  rfl

theorem checkOut_default (hname : git.branch = none) (hrev : git.rev = none) :
    checkOut g git repo s = .ok () s := by
  unfold checkOut
  rw [hname, hrev]
  rfl

theorem resolve_ok (habsent : ¬g.pathExists (repoPath env deps git) s)
    (hclone : g.clone git.git (repoPath env deps git) s = .ok repo s1)
    (hcheckout : checkOut g git repo s1 = .ok () s2) :
    resolve env g deps git s = .ok (repoPath env deps git) s2 := by
  rw [resolve_absent habsent, bind_ok (clone_ok hclone), bind_ok hcheckout]
  rfl

theorem resolve_error {e : String} (habsent : ¬g.pathExists (repoPath env deps git) s)
    (hclone : g.clone git.git (repoPath env deps git) s = .ok repo s1)
    (hcheckout : checkOut g git repo s1 = .error e s2) :
    resolve env g deps git s = .error e s2 := by
  rw [resolve_absent habsent, bind_ok (clone_ok hclone), bind_error hcheckout]

end

inductive Op where
  | Clone (url : Text)
  | Head
  | FindCommit
  | Branch (name : Text)
  | Revparse (spec : Text)
  | CheckoutTree
  | SetHead (refname : Text)
  deriving DecidableEq

/-- How the operations of one call fail, and whether a clone that fails leaves its directory. -/
structure Faults where
  fails : Op → Option String
  leaves : Bool
  target : Option Unit
  oidFromStr : Text → Except String Unit

/-- The directories that exist, and the operations that have been completed in each. -/
structure Records where
  present : Text → Bool
  done : Text → List Op

namespace Records

def empty : Records := ⟨fun _ => false, fun _ => []⟩

def create (path : Text) (s : Records) : Records :=
  { s with present := Function.update s.present path true }

def log (path : Text) (s : Records) (op : Op) : Records :=
  { s with done := Function.update s.done path (s.done path ++ [op]) }

def logAll (path : Text) (s : Records) (ops : List Op) : Records := ops.foldl (log path) s

variable {path other : Text} {s : Records} {op : Op} {ops : List Op}

theorem log_done : (s.log path op).done path = s.done path ++ [op] := Function.update_self ..

theorem log_done_other (h : other ≠ path) : (s.log path op).done other = s.done other :=
  Function.update_of_ne h ..

theorem create_present : (s.create path).present path = true := Function.update_self ..

theorem create_present_other (h : other ≠ path) :
    (s.create path).present other = s.present other :=
  Function.update_of_ne h ..

theorem logAll_present : (s.logAll path ops).present = s.present := by
  induction ops generalizing s with
  | nil => rfl
  | cons op ops ih => exact ih

theorem logAll_done : (s.logAll path ops).done path = s.done path ++ ops := by
  induction ops generalizing s with
  | nil => exact (List.append_nil _).symm
  | cons op ops ih =>
    show ((s.log path op).logAll path ops).done path = _
    rw [ih, log_done, List.append_assoc, List.singleton_append]

theorem logAll_done_other (h : other ≠ path) : (s.logAll path ops).done other = s.done other := by
  induction ops generalizing s with
  | nil => rfl
  | cons op ops ih =>
    show ((s.log path op).logAll path ops).done other = _
    rw [ih, log_done_other h]

end Records

def attempt {α : Type} (f : Faults) (path : Text) (op : Op) (a : α) : EStateM String Records α :=
  fun s =>
    match f.fails op with
    | none => .ok a (s.log path op)
    | some e => .error e s

def recordedClone (f : Faults) (url path : Text) : EStateM String Records Text := fun s =>
  match f.fails (.Clone url) with
  | none => .ok path ((s.create path).log path (.Clone url))
  | some e => .error e (if f.leaves then s.create path else s)

/-- A repository is its path. -/
def recorder (f : Faults) : Git2 Records where
  Repository := Text
  Reference := Unit
  Oid := Unit
  Commit := Unit
  Object := Unit
  pathExists path s := s.present path
  clone := recordedClone f
  head repo := attempt f repo .Head ()
  target _ := f.target
  oidFromStr := f.oidFromStr
  findCommit repo _ := attempt f repo .FindCommit ()
  branch repo name _ _ := attempt f repo (.Branch name) ()
  revparseSingle repo spec := attempt f repo (.Revparse spec) ()
  checkoutTree repo _ := attempt f repo .CheckoutTree ()
  setHead repo refname := attempt f repo (.SetHead refname) ()

def switchOps (name : Text) : List Op :=
  [.Branch name, .Revparse (headsRef name), .CheckoutTree, .SetHead (headsRef name)]

/-- The whole checkout of what is requested. -/
def sequence (git : Git) : List Op :=
  .Clone git.git ::
    match git.branch, git.rev with
    | some name, _ => .Head :: .FindCommit :: switchOps name
    | none, some rev => .FindCommit :: switchOps rev
    | none, none => []

/-- A call, with what fails in it. -/
structure Call where
  git : Git
  faults : Faults

section
variable (env : Env) (deps : Text)

def after (s : Records) (c : Call) : Records :=
  match resolve env (recorder c.faults) deps c.git s with
  | .ok _ s' => s'
  | .error _ s' => s'

/-- No step behind the clone fails. -/
structure Sound (f : Faults) (git : Git) : Prop where
  ops : ∀ op ∈ sequence git, f.fails op = none
  target : git.branch ≠ none → f.target = some ()
  oid : ∀ rev, git.branch = none → git.rev = some rev → f.oidFromStr rev = .ok ()

/-- A clone that fails leaves no directory, after one that does not fail no step fails, and a
directory that is there has been made for the same request. -/
def Meets (history : List Call) (s : Records) (c : Call) : Prop :=
  if s.present (repoPath env deps c.git) then
    ∀ c' ∈ history, repoPath env deps c'.git = repoPath env deps c.git →
      sequence c'.git = sequence c.git
  else if c.faults.fails (.Clone c.git.git) = none then Sound c.faults c.git
  else c.faults.leaves = false

/-- A path that is returned has all of what was requested, and an error leaves no directory. -/
def Completes (s : Records) (c : Call) : Prop :=
  match resolve env (recorder c.faults) deps c.git s with
  | .ok path s' => path = repoPath env deps c.git ∧ s'.done path = sequence c.git
  | .error _ s' => ¬s'.present (repoPath env deps c.git)

/-- A directory that is there has all of what was requested, and one that is not has nothing. -/
def Kept (history : List Call) (s : Records) : Prop :=
  (∀ path, s.present path → ∃ c ∈ history, path = repoPath env deps c.git ∧
    s.done path = sequence c.git) ∧
  ∀ path, ¬s.present path → s.done path = []

end

section
variable {env : Env} {deps : Text} {f : Faults} {git : Git} {path : Text} {s : Records}

theorem attempt_ok {α : Type} {op : Op} {a : α} (h : f.fails op = none) :
    attempt f path op a s = .ok a (s.log path op) := by
  unfold attempt
  rw [h]

theorem switchTo_recorded {name : Text} (h : ∀ op ∈ switchOps name, f.fails op = none) :
    switchTo (recorder f) path name () s = .ok () (s.logAll path (switchOps name)) := by
  simp only [switchOps, List.forall_mem_cons] at h
  obtain ⟨hbranch, hrevparse, hcheckout, hhead, -⟩ := h
  exact switchTo_ok (g := recorder f) (attempt_ok hbranch) (attempt_ok hrevparse)
    (attempt_ok hcheckout) (attempt_ok hhead)

theorem checkOut_recorded (h : Sound f git) :
    checkOut (recorder f) git path s = .ok () (s.logAll path (sequence git).tail) := by
  have hops : ∀ op ∈ (sequence git).tail, f.fails op = none :=
    fun op hop => h.ops op (List.mem_of_mem_tail hop)
  cases hbranch : git.branch with
  | some name =>
    have htail : (sequence git).tail = .Head :: .FindCommit :: switchOps name := by
      rw [sequence, hbranch, List.tail_cons]
    rw [htail] at hops ⊢
    simp only [List.forall_mem_cons] at hops
    obtain ⟨hhead, hfind, hswitch⟩ := hops
    refine (checkOut_branch (g := recorder f) hbranch (attempt_ok hhead) (h.target ?_)
      (attempt_ok hfind)).trans (switchTo_recorded hswitch)
    simp [hbranch]
  | none =>
    cases hrev : git.rev with
    | some rev =>
      have htail : (sequence git).tail = .FindCommit :: switchOps rev := by
        rw [sequence, hbranch, hrev, List.tail_cons]
      rw [htail] at hops ⊢
      obtain ⟨hfind, hswitch⟩ := List.forall_mem_cons.mp hops
      exact (checkOut_rev (g := recorder f) hbranch hrev (h.oid rev hbranch hrev)
        (attempt_ok hfind)).trans (switchTo_recorded hswitch)
    | none =>
      have htail : (sequence git).tail = [] := by
        rw [sequence, hbranch, hrev, List.tail_cons]
      rw [htail]
      exact checkOut_default hbranch hrev

theorem resolve_sound (habsent : ¬s.present (repoPath env deps git)) (h : Sound f git) :
    resolve env (recorder f) deps git s = .ok (repoPath env deps git)
      ((s.create (repoPath env deps git)).logAll (repoPath env deps git) (sequence git)) := by
  have hclone : recordedClone f git.git (repoPath env deps git) s = .ok (repoPath env deps git)
      ((s.create (repoPath env deps git)).log (repoPath env deps git) (.Clone git.git)) := by
    have hok : f.fails (.Clone git.git) = none := h.ops _ (List.mem_cons_self ..)
    unfold recordedClone
    rw [hok]
  exact resolve_ok (g := recorder f) habsent hclone (checkOut_recorded h)

theorem resolve_clone_failed (habsent : ¬s.present (repoPath env deps git))
    (hfails : f.fails (.Clone git.git) ≠ none) (hleaves : f.leaves = false) :
    ∃ e, resolve env (recorder f) deps git s = .error e s := by
  obtain ⟨e, he⟩ := Option.ne_none_iff_exists'.mp hfails
  have hclone : recordedClone f git.git (repoPath env deps git) s = .error e s := by
    unfold recordedClone
    rw [he, hleaves]
    rfl
  obtain ⟨e', he'⟩ := clone_error (g := recorder f) hclone
  exact ⟨e', (resolve_absent (g := recorder f) habsent).trans (bind_error he')⟩

variable {history : List Call} {c : Call}

theorem after_ok {s' : Records} {path : Text}
    (h : resolve env (recorder c.faults) deps c.git s = .ok path s') :
    after env deps s c = s' := by
  unfold after
  rw [h]

theorem after_error {s' : Records} {e : String}
    (h : resolve env (recorder c.faults) deps c.git s = .error e s') :
    after env deps s c = s' := by
  unfold after
  rw [h]

/-- What a call that meets the condition can do. -/
theorem Meets.cases (hc : Meets env deps history s c) :
    (s.present (repoPath env deps c.git) ∧
      (∀ c' ∈ history, repoPath env deps c'.git = repoPath env deps c.git →
        sequence c'.git = sequence c.git) ∧
      resolve env (recorder c.faults) deps c.git s = .ok (repoPath env deps c.git) s) ∨
    (¬s.present (repoPath env deps c.git) ∧
      resolve env (recorder c.faults) deps c.git s = .ok (repoPath env deps c.git)
        ((s.create (repoPath env deps c.git)).logAll (repoPath env deps c.git) (sequence c.git))) ∨
    ¬s.present (repoPath env deps c.git) ∧
      ∃ e, resolve env (recorder c.faults) deps c.git s = .error e s := by
  unfold Meets at hc
  split at hc
  case isTrue hpresent => exact .inl ⟨hpresent, hc, resolve_present hpresent⟩
  case isFalse habsent =>
    split at hc
    case isTrue => exact .inr (.inl ⟨habsent, resolve_sound habsent hc⟩)
    case isFalse hfails => exact .inr (.inr ⟨habsent, resolve_clone_failed habsent hfails hc⟩)

theorem Kept.mono (h : Kept env deps history s) : Kept env deps (history ++ [c]) s := by
  refine ⟨fun path hpath => ?_, h.2⟩
  obtain ⟨c', hc', hmade⟩ := h.1 path hpath
  exact ⟨c', List.mem_append_left _ hc', hmade⟩

theorem after_kept (h : Kept env deps history s) (hc : Meets env deps history s c) :
    Kept env deps (history ++ [c]) (after env deps s c) := by
  rcases hc.cases with ⟨-, -, hrun⟩ | ⟨habsent, hrun⟩ | ⟨-, e, hrun⟩
  · rw [after_ok hrun]
    exact h.mono
  · rw [after_ok hrun]
    constructor
    · intro path hpath
      rw [Records.logAll_present] at hpath
      by_cases hp : path = repoPath env deps c.git
      · -- this call has made the directory, with nothing done in it before
        subst hp
        refine ⟨c, List.mem_append_right _ (List.mem_singleton_self c), rfl, ?_⟩
        rw [Records.logAll_done, show (s.create _).done _ = s.done _ from rfl, h.2 _ habsent,
          List.nil_append]
      · rw [Records.create_present_other hp] at hpath
        obtain ⟨c', hc', hpath', hdone⟩ := h.1 path hpath
        refine ⟨c', List.mem_append_left _ hc', hpath', ?_⟩
        rw [Records.logAll_done_other hp]
        exact hdone
    · intro path hpath
      rw [Records.logAll_present] at hpath
      have hp : path ≠ repoPath env deps c.git := by
        rintro rfl
        exact hpath Records.create_present
      rw [Records.create_present_other hp] at hpath
      rw [Records.logAll_done_other hp]
      exact h.2 path hpath
  · rw [after_error hrun]
    exact h.mono

theorem empty_kept : Kept env deps [] Records.empty :=
  ⟨fun path hpath => (by cases hpath), fun _ _ => rfl⟩

end

/-- As long as no step behind a clone fails, what a call returns has been checked out completely,
and a call that fails leaves nothing. -/
theorem resolved_completely (env : Env) (deps : Text) (history : List Call) (s : Records)
    (hrun : Run (fun s c => some (after env deps s c)) (Meets env deps) Records.empty history s)
    (c : Call) (hc : Meets env deps history s c) : Completes env deps s c := by
  have hkept : Kept env deps history s := hrun.invariant empty_kept fun hk hok hstep =>
    Option.some.inj hstep ▸ after_kept hk hok
  unfold Completes
  rcases hc.cases with ⟨hpresent, hsame, hrun⟩ | ⟨habsent, hrun⟩ | ⟨habsent, e, hrun⟩
  · rw [hrun]
    obtain ⟨c', hc', hpath, hdone⟩ := hkept.1 _ hpresent
    exact ⟨rfl, hdone.trans (hsame c' hc' hpath.symm)⟩
  · rw [hrun]
    refine ⟨rfl, ?_⟩
    rw [Records.logAll_done]
    show s.done _ ++ _ = _
    rw [hkept.2 _ habsent, List.nil_append]
  · rw [hrun]
    exact habsent

def onBranch : Git := ⟨"https://e.org/std.git".toList, some "dev".toList, none⟩

/-- Only the operations of which `fails` holds fail. -/
def failing (fails : Op → Bool) : Faults where
  fails op := if fails op then some "failed" else none
  leaves := false
  target := some ()
  oidFromStr _ := .ok ()

/-- The second call resolves what the first could not clone. -/
theorem cloned_later : Completes plainEnv "target".toList
    (after plainEnv "target".toList Records.empty
      ⟨onBranch, failing (· == .Clone onBranch.git)⟩) ⟨onBranch, failing fun _ => false⟩ := by
  refine resolved_completely plainEnv "target".toList
    [⟨onBranch, failing (· == .Clone onBranch.git)⟩] _ ?_ _ ?_
  · refine .next .start ?_ rfl
    show (failing (· == .Clone onBranch.git)).leaves = false
    rfl
  · show Sound (failing fun _ => false) onBranch
    exact ⟨fun _ _ => rfl, fun _ => rfl, fun _ _ _ => rfl⟩

/-- The branch cannot be created, and the second call takes the directory for resolved. -/
theorem half_resolved : ∃ s path,
    (∃ e, resolve plainEnv (recorder (failing (· == .Branch "dev".toList))) "target".toList onBranch
        Records.empty = .error e s) ∧
      resolve plainEnv (recorder (failing fun _ => false)) "target".toList onBranch s =
        .ok path s ∧ s.done path ≠ sequence onBranch := by
  refine ⟨_, _, ⟨_, rfl⟩, rfl, ?_⟩
  decide

end MoveTools.Index.GitResolve
