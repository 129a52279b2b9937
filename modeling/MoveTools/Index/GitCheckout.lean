import MoveTools.Index.GitResolve

namespace MoveTools.Index.GitCheckout
open Build GitResolve Effects

/-- Which names branches can have, and how revisions are read. A revision that is a commit's can
name a branch. -/
structure Revisions (Oid : Type) where
  validName : Text → Bool
  oidFromStr : Text → Except String Oid
  rev_valid : ∀ {rev oid}, oidFromStr rev = .ok oid → validName rev

/-- A remote: its default branch, the commits of the branches, and the trees of the commits. -/
structure Remote {Oid : Type} (revisions : Revisions Oid) (Tree : Type) where
  defaultBranch : Text
  defaultCommit : Oid
  branches : Text → Option Oid
  trees : Oid → Option Tree
  branches_default : branches defaultBranch = some defaultCommit
  branch_valid : ∀ {name oid}, branches name = some oid → revisions.validName name
  branch_tree : ∀ {name oid}, branches name = some oid → (trees oid).isSome

structure LocalRepo (Oid Tree : Type) where
  head : Text
  refs : Text → Option Oid
  workdir : Option Tree

abbrev Repos (Oid Tree : Type) := Text → Option (LocalRepo Oid Tree)

section
variable {Oid Tree : Type} {revisions : Revisions Oid}

/-- The local HEAD at the default branch's commit, and the branches of the remote. -/
def Remote.cloned (remote : Remote revisions Tree) : LocalRepo Oid Tree where
  head := headsRef remote.defaultBranch
  refs ref :=
    if ref = headsRef remote.defaultBranch then some remote.defaultCommit
    else if "refs/remotes/origin/".toList.isPrefixOf ref then
      remote.branches (ref.drop "refs/remotes/origin/".toList.length)
    else none
  workdir := remote.trees remote.defaultCommit

def onRepo {α : Type} (path : Text)
    (f : LocalRepo Oid Tree → Except String (α × LocalRepo Oid Tree)) :
    EStateM String (Repos Oid Tree) α := fun s =>
  match s path with
  | none => .error "failed to resolve path" s
  | some repo =>
    match f repo with
    | .ok (a, repo') => .ok a (Function.update s path (some repo'))
    | .error e => .error e s

namespace LocalRepo

def findRef (ref : Text) (repo : LocalRepo Oid Tree) : Except String (Oid × LocalRepo Oid Tree) :=
  match repo.refs ref with
  | some oid => .ok (oid, repo)
  | none => .error "reference not found"

def setRef (repo : LocalRepo Oid Tree) (ref : Text) (oid : Oid) : LocalRepo Oid Tree :=
  { repo with refs := Function.update repo.refs ref (some oid) }

def branch (revisions : Revisions Oid) (name : Text) (oid : Oid) (force : Bool)
    (repo : LocalRepo Oid Tree) : Except String (Unit × LocalRepo Oid Tree) :=
  if !revisions.validName name then .error "the given reference name is not valid"
  else if (repo.refs (headsRef name)).isSome && !force then
    .error "a reference with that name already exists"
  else .ok ((), repo.setRef (headsRef name) oid)

def findCommit (remote : Remote revisions Tree) (oid : Oid) (repo : LocalRepo Oid Tree) :
    Except String (Oid × LocalRepo Oid Tree) :=
  if (remote.trees oid).isSome then .ok (oid, repo) else .error "object not found"

def checkoutTree (remote : Remote revisions Tree) (oid : Oid) (repo : LocalRepo Oid Tree) :
    Except String (Unit × LocalRepo Oid Tree) :=
  match remote.trees oid with
  | some tree => .ok ((), { repo with workdir := some tree })
  | none => .error "object not found"

def setHead (refname : Text) (repo : LocalRepo Oid Tree) :
    Except String (Unit × LocalRepo Oid Tree) :=
  .ok ((), { repo with head := refname })

end LocalRepo

/-- Working on clones of the remote. -/
def remoteGit (remote : Remote revisions Tree) : Git2 (Repos Oid Tree) where
  Repository := Text
  Reference := Oid
  Oid := Oid
  Commit := Oid
  Object := Oid
  pathExists path s := (s path).isSome
  clone _ path s := .ok path (Function.update s path (some remote.cloned))
  head path := onRepo path fun repo => repo.findRef repo.head
  target oid := some oid
  oidFromStr := revisions.oidFromStr
  findCommit path oid := onRepo path (LocalRepo.findCommit remote oid)
  branch path name oid force := onRepo path (LocalRepo.branch revisions name oid force)
  revparseSingle path spec := onRepo path (LocalRepo.findRef spec)
  checkoutTree path oid := onRepo path (LocalRepo.checkoutTree remote oid)
  setHead path refname := onRepo path (LocalRepo.setHead refname)

/-- The tree that the dependency names. -/
def Named (remote : Remote revisions Tree) (git : Git) (tree : Tree) : Prop :=
  match git.branch, git.rev with
  | some name, _ => ∃ oid, remote.branches name = some oid ∧ remote.trees oid = some tree
  | none, some rev => ∃ oid, revisions.oidFromStr rev = .ok oid ∧ remote.trees oid = some tree
  | none, none => remote.trees remote.defaultCommit = some tree

/-- A branch is not the default one and has the same tree; a revision is not the name of the default
branch. -/
def Reached (remote : Remote revisions Tree) (git : Git) : Prop :=
  match git.branch, git.rev with
  | some name, _ => revisions.validName name → name ≠ remote.defaultBranch ∧
      ∃ oid, remote.branches name = some oid ∧
        remote.trees oid = remote.trees remote.defaultCommit
  | none, some rev => (∃ tree, Named remote git tree) → rev ≠ remote.defaultBranch
  | none, none => True

variable {remote : Remote revisions Tree} {path name : Text} {s : Repos Oid Tree}
  {repo : LocalRepo Oid Tree} {oid : Oid} {tree : Tree}

theorem onRepo_ok {α : Type} {f : LocalRepo Oid Tree → Except String (α × LocalRepo Oid Tree)}
    {a : α} {repo' : LocalRepo Oid Tree} (hs : s path = some repo) (hf : f repo = .ok (a, repo')) :
    onRepo path f s = .ok a (Function.update s path (some repo')) := by
  unfold onRepo
  rw [hs]
  simp only [hf]

theorem onRepo_error {α : Type} {f : LocalRepo Oid Tree → Except String (α × LocalRepo Oid Tree)}
    {e : String} (hs : s path = some repo) (hf : f repo = .error e) :
    onRepo path f s = .error e s := by
  unfold onRepo
  rw [hs]
  simp only [hf]

theorem headsRef_injective : Function.Injective headsRef := fun _ _ h => List.append_cancel_left h

theorem cloned_refs_heads : remote.cloned.refs (headsRef name) =
    if name = remote.defaultBranch then some remote.defaultCommit else none := by
  split
  case isTrue h =>
    rw [h]
    exact if_pos rfl
  case isFalse h =>
    have href : headsRef name ≠ headsRef remote.defaultBranch := fun heq => h (headsRef_injective heq)
    exact if_neg href

theorem branch_new (hvalid : revisions.validName name) (hnew : repo.refs (headsRef name) = none) :
    repo.branch revisions name oid false = .ok ((), repo.setRef (headsRef name) oid) := by
  unfold LocalRepo.branch
  rw [hvalid, hnew]
  rfl

variable (oid) in
theorem branch_fails (h : ¬revisions.validName name ∨ (repo.refs (headsRef name)).isSome) :
    ∃ e, repo.branch revisions name oid false = .error e := by
  unfold LocalRepo.branch
  split
  case isTrue => exact ⟨_, rfl⟩
  case isFalse hvalid =>
    have hsome := h.resolve_left fun hno => hvalid (by simp [hno])
    rw [hsome]
    exact ⟨_, rfl⟩

theorem findCommit_some (htree : remote.trees oid = some tree) :
    repo.findCommit remote oid = .ok (oid, repo) := by
  unfold LocalRepo.findCommit
  rw [htree]
  rfl

theorem switchTo_new (hs : s path = some repo) (hvalid : revisions.validName name)
    (hnew : repo.refs (headsRef name) = none) (htree : remote.trees oid = some tree) :
    ∃ s' repo', switchTo (remoteGit remote) path name oid s = .ok () s' ∧
      s' path = some repo' ∧ repo'.workdir = some tree := by
  have hrevparse : (repo.setRef (headsRef name) oid).findRef (headsRef name) =
      .ok (oid, repo.setRef (headsRef name) oid) := by
    unfold LocalRepo.findRef LocalRepo.setRef
    simp only [Function.update_self]
  have hcheckout : (repo.setRef (headsRef name) oid).checkoutTree remote oid =
      .ok ((), { repo.setRef (headsRef name) oid with workdir := some tree }) := by
    unfold LocalRepo.checkoutTree
    rw [htree]
  have hrun := switchTo_ok (g := remoteGit remote) (onRepo_ok hs (branch_new hvalid hnew))
    (onRepo_ok (Function.update_self ..) hrevparse) (onRepo_ok (Function.update_self ..) hcheckout)
    (onRepo_ok (f := LocalRepo.setHead (headsRef name)) (Function.update_self ..) rfl)
  exact ⟨_, _, hrun, Function.update_self .., rfl⟩

variable (oid) in
theorem switchTo_fails (hs : s path = some repo)
    (h : ¬revisions.validName name ∨ (repo.refs (headsRef name)).isSome) :
    ∃ e s', switchTo (remoteGit remote) path name oid s = .error e s' := by
  obtain ⟨e, he⟩ := branch_fails oid h
  exact ⟨e, s, switchTo_error (g := remoteGit remote) (onRepo_error hs he)⟩

theorem exists_tree (h : remote.branches name = some oid) : ∃ tree, remote.trees oid = some tree :=
  Option.isSome_iff_exists.mp (remote.branch_tree h)

variable {env : Env} {deps : Text} {git : Git}

/-- The clone at its path. -/
abbrev withClone (remote : Remote revisions Tree) (s : Repos Oid Tree) (path : Text) :
    Repos Oid Tree :=
  Function.update s path (some remote.cloned)

variable (remote path s) in
theorem checkOut_of_branch (hname : git.branch = some name) : ∃ s1, s1 path = some remote.cloned ∧
    checkOut (remoteGit remote) git path (withClone remote s path) =
      switchTo (remoteGit remote) path name remote.defaultCommit s1 := by
  obtain ⟨tree, htree⟩ := exists_tree remote.branches_default
  have hhead : remote.cloned.findRef remote.cloned.head =
      .ok (remote.defaultCommit, remote.cloned) := by
    unfold LocalRepo.findRef
    rw [show remote.cloned.head = headsRef remote.defaultBranch from rfl, cloned_refs_heads,
      if_pos rfl]
  have hrun := checkOut_branch (g := remoteGit remote) hname
    (onRepo_ok (s := withClone remote s path) (f := fun repo => repo.findRef repo.head)
      (Function.update_self ..) hhead) rfl
    (onRepo_ok (Function.update_self ..) (findCommit_some htree))
  exact ⟨_, Function.update_self .., hrun⟩

variable (remote path s) in
theorem checkOut_of_rev {rev : Text} (hname : git.branch = none) (hrev : git.rev = some rev)
    (hoid : revisions.oidFromStr rev = .ok oid) (htree : remote.trees oid = some tree) :
    ∃ s1, s1 path = some remote.cloned ∧
      checkOut (remoteGit remote) git path (withClone remote s path) =
        switchTo (remoteGit remote) path rev oid s1 := by
  have hrun := checkOut_rev (g := remoteGit remote) hname hrev hoid
    (onRepo_ok (s := withClone remote s path) (Function.update_self ..) (findCommit_some htree))
  exact ⟨_, Function.update_self .., hrun⟩

variable (remote path s) in
/-- A revision that is not a commit's is not checked out. -/
theorem checkOut_of_no_rev {rev : Text} (hname : git.branch = none) (hrev : git.rev = some rev)
    (hno : ¬∃ tree, Named remote git tree) :
    ∃ e s', checkOut (remoteGit remote) git path (withClone remote s path) = .error e s' := by
  have hnone : ∀ oid, revisions.oidFromStr rev = .ok oid → remote.trees oid = none := by
    intro oid hoid
    refine Option.eq_none_iff_forall_ne_some.mpr fun tree htree => hno ⟨tree, ?_⟩
    unfold Named
    rw [hname, hrev]
    exact ⟨oid, hoid, htree⟩
  cases hoid : revisions.oidFromStr rev with
  | error e => exact ⟨e, _, checkOut_rev_unread (g := remoteGit remote) hname hrev hoid⟩
  | ok oid =>
    have hfind : remote.cloned.findCommit remote oid = .error "object not found" := by
      unfold LocalRepo.findCommit
      rw [hnone oid hoid]
      rfl
    exact ⟨_, _, checkOut_rev_unknown (g := remoteGit remote) hname hrev hoid
      (onRepo_error (Function.update_self ..) hfind)⟩

/-- What is checked out is what the dependency names, and what it names is checked out. -/
def ChecksOut (remote : Remote revisions Tree) (git : Git)
    (run : EStateM.Result String (Repos Oid Tree) Text) : Prop :=
  (∀ path s', run = .ok path s' → ∃ repo tree, s' path = some repo ∧ repo.workdir = some tree ∧
    Named remote git tree) ∧
  ((∃ tree, Named remote git tree) → ∃ path s', run = .ok path s')

theorem checksOut_ok {s' : Repos Oid Tree} (hs : s' path = some repo)
    (htree : repo.workdir = some tree) :
    ChecksOut remote git (.ok path s') ↔ Named remote git tree := by
  constructor
  · rintro ⟨h, -⟩
    obtain ⟨repo', tree', hs', htree', hnamed⟩ := h path s' rfl
    cases hs.symm.trans hs'
    cases htree.symm.trans htree'
    exact hnamed
  · intro hnamed
    refine ⟨?_, fun _ => ⟨path, s', rfl⟩⟩
    rintro _ _ ⟨⟩
    exact ⟨repo, tree, hs, htree, hnamed⟩

theorem checksOut_error {e : String} {s' : Repos Oid Tree} :
    ChecksOut remote git (.error e s') ↔ ¬∃ tree, Named remote git tree := by
  constructor
  · rintro ⟨-, h⟩ hnamed
    obtain ⟨path, s'', hrun⟩ := h hnamed
    cases hrun
  · intro hno
    refine ⟨?_, fun hnamed => absurd hnamed hno⟩
    rintro path s'' ⟨⟩

section
variable (habsent : s (repoPath env deps git) = none)
include habsent

theorem resolve_of_ok {s' : Repos Oid Tree}
    (h : checkOut (remoteGit remote) git (repoPath env deps git)
      (withClone remote s (repoPath env deps git)) = .ok () s') :
    resolve env (remoteGit remote) deps git s = .ok (repoPath env deps git) s' := by
  refine resolve_ok (g := remoteGit remote) ?_ rfl h
  show ¬(s (repoPath env deps git)).isSome
  simp [habsent]

theorem resolve_of_error {e : String} {s' : Repos Oid Tree}
    (h : checkOut (remoteGit remote) git (repoPath env deps git)
      (withClone remote s (repoPath env deps git)) = .error e s') :
    resolve env (remoteGit remote) deps git s = .error e s' := by
  refine resolve_error (g := remoteGit remote) ?_ rfl h
  show ¬(s (repoPath env deps git)).isSome
  simp [habsent]

theorem branch_checksOut_iff (hname : git.branch = some name) :
    ChecksOut remote git (resolve env (remoteGit remote) deps git s) ↔
      (revisions.validName name → name ≠ remote.defaultBranch ∧
        ∃ oid, remote.branches name = some oid ∧
          remote.trees oid = remote.trees remote.defaultCommit) := by
  have hnamed : ∀ tree, Named remote git tree ↔
      ∃ oid, remote.branches name = some oid ∧ remote.trees oid = some tree := by
    intro tree
    unfold Named
    rw [hname]
  obtain ⟨tree, htree⟩ := exists_tree remote.branches_default
  obtain ⟨s1, hs1, hrun⟩ := checkOut_of_branch remote (repoPath env deps git) s hname
  -- the branch cannot be made: its name is none, or is taken by the default branch
  by_cases hclash : ¬revisions.validName name ∨ (remote.cloned.refs (headsRef name)).isSome
  · obtain ⟨e, s2, hswitch⟩ := switchTo_fails remote.defaultCommit hs1 hclash
    rw [resolve_of_error habsent (hrun.trans hswitch), checksOut_error]
    rcases hclash with hinvalid | hexists
    · refine iff_of_true ?_ fun hvalid => absurd hvalid hinvalid
      rintro ⟨tree', h⟩
      obtain ⟨oid, hoid, -⟩ := (hnamed tree').mp h
      exact hinvalid (remote.branch_valid hoid)
    · have hdefault : name = remote.defaultBranch := by
        by_contra hne
        rw [cloned_refs_heads, if_neg hne] at hexists
        cases hexists
      subst hdefault
      refine iff_of_false (fun hno => hno ⟨tree, ?_⟩) fun h => ?_
      · exact (hnamed tree).mpr ⟨_, remote.branches_default, htree⟩
      · exact (h (remote.branch_valid remote.branches_default)).1 rfl
  · obtain ⟨hvalid, hnew⟩ := not_or.mp hclash
    rw [not_not] at hvalid
    rw [Option.not_isSome_iff_eq_none] at hnew
    have hne : name ≠ remote.defaultBranch := by
      rintro rfl
      rw [cloned_refs_heads, if_pos rfl] at hnew
      cases hnew
    obtain ⟨s2, repo', hswitch, hs2, htree'⟩ := switchTo_new hs1 hvalid hnew htree
    rw [resolve_of_ok habsent (hrun.trans hswitch), checksOut_ok hs2 htree', hnamed, htree]
    simp only [hvalid, hne, ne_eq, not_false_eq_true, true_and, forall_const]

theorem rev_checksOut_iff {rev : Text} (hname : git.branch = none) (hrev : git.rev = some rev) :
    ChecksOut remote git (resolve env (remoteGit remote) deps git s) ↔
      ((∃ tree, Named remote git tree) → rev ≠ remote.defaultBranch) := by
  by_cases hno : ∃ tree, Named remote git tree
  · obtain ⟨tree, hnamed⟩ := hno
    have hcommit := hnamed
    unfold Named at hcommit
    rw [hname, hrev] at hcommit
    obtain ⟨oid, hoid, htree⟩ := hcommit
    obtain ⟨s1, hs1, hrun⟩ := checkOut_of_rev remote (repoPath env deps git) s hname hrev hoid
      htree
    have hvalid := revisions.rev_valid hoid
    by_cases hdefault : rev = remote.defaultBranch
    · have hexists : (remote.cloned.refs (headsRef rev)).isSome := by
        rw [cloned_refs_heads, if_pos hdefault]
        rfl
      obtain ⟨e, s2, hswitch⟩ := switchTo_fails oid hs1 (.inr hexists)
      rw [resolve_of_error habsent (hrun.trans hswitch), checksOut_error]
      exact iff_of_false (fun hno => hno ⟨tree, hnamed⟩) fun h => h ⟨tree, hnamed⟩ hdefault
    · have hnew : remote.cloned.refs (headsRef rev) = none := by
        rw [cloned_refs_heads, if_neg hdefault]
      obtain ⟨s2, repo', hswitch, hs2, htree'⟩ := switchTo_new hs1 hvalid hnew htree
      rw [resolve_of_ok habsent (hrun.trans hswitch), checksOut_ok hs2 htree']
      exact iff_of_true hnamed fun _ => hdefault
  · obtain ⟨e, s2, hrun⟩ := checkOut_of_no_rev remote (repoPath env deps git) s hname hrev hno
    rw [resolve_of_error habsent hrun, checksOut_error]
    exact iff_of_true hno fun h => absurd h hno

theorem default_checksOut (hname : git.branch = none) (hrev : git.rev = none) :
    ChecksOut remote git (resolve env (remoteGit remote) deps git s) := by
  obtain ⟨tree, htree⟩ := exists_tree remote.branches_default
  rw [resolve_of_ok habsent (checkOut_default (g := remoteGit remote) hname hrev),
    checksOut_ok (Function.update_self ..) htree]
  unfold Named
  rw [hname, hrev]
  exact htree

end
end

/-- A branch is made of the default branch's commit, whatever it is at the remote, and cannot be
made where it is the default one. -/
theorem checked_out_iff {Oid Tree : Type} {revisions : Revisions Oid}
    (remote : Remote revisions Tree) (env : Env) (deps : Text) (git : Git) (s : Repos Oid Tree)
    (habsent : s (repoPath env deps git) = none) :
    ChecksOut remote git (resolve env (remoteGit remote) deps git s) ↔ Reached remote git := by
  unfold Reached
  cases hname : git.branch with
  | some name => exact branch_checksOut_iff habsent hname
  | none =>
    cases hrev : git.rev with
    | some rev => exact rev_checksOut_iff habsent hname hrev
    | none => exact iff_of_true (default_checksOut habsent hname hrev) trivial

def anyRevision : Revisions ℕ where
  validName _ := true
  oidFromStr rev := if rev = "a1".toList then .ok 1 else .error "invalid oid"
  rev_valid _ := rfl

def mainAndDev : Remote anyRevision ℕ where
  defaultBranch := "main".toList
  defaultCommit := 1
  branches name :=
    if name = "main".toList then some 1 else if name = "dev".toList then some 2 else none
  trees oid := if oid = 1 then some 10 else if oid = 2 then some 20 else none
  branches_default := rfl
  branch_valid _ := rfl
  branch_tree {name oid} h := by
    split at h
    · cases h
      rfl
    · split at h
      · cases h
        rfl
      · cases h

theorem revision_checked_out : ChecksOut mainAndDev ⟨"r".toList, none, some "a1".toList⟩
    (resolve plainEnv (remoteGit mainAndDev) "target".toList ⟨"r".toList, none, some "a1".toList⟩
      fun _ => none) :=
  (checked_out_iff mainAndDev plainEnv "target".toList ⟨"r".toList, none, some "a1".toList⟩
    (fun _ => none) rfl).mpr fun _ => by decide

/-- The branch has a tree of its own, and that of the default branch is checked out for it. -/
theorem dev_not_checked_out : ¬ChecksOut mainAndDev ⟨"r".toList, some "dev".toList, none⟩
    (resolve plainEnv (remoteGit mainAndDev) "target".toList ⟨"r".toList, some "dev".toList, none⟩
      fun _ => none) := by
  rw [branch_checksOut_iff rfl rfl]
  intro h
  obtain ⟨-, oid, hoid, htree⟩ := h rfl
  cases hoid
  exact absurd htree (by decide)

end MoveTools.Index.GitCheckout
