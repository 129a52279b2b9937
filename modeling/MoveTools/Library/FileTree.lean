import Mathlib.Data.List.Infix
import Mathlib.Data.List.Induction
import MoveTools.Library.KeyStore
import MoveTools.Library.Text

namespace MoveTools

/-- The names on the way to a file, from the root on. -/
abbrev Path := List Text

inductive FileNode (β : Type) where
  | dir
  | file (content : β)

inductive IoError where
  | NotFound | NotADirectory | IsADirectory | AlreadyExists | InvalidInput
  deriving DecidableEq

/-- Files and directories. Everything lies in a directory. -/
structure FileTree (β : Type) where
  node : Path → Option (FileNode β)
  root : node [] = some .dir
  parent : ∀ p name, node (p ++ [name]) ≠ none → node p = some .dir

namespace FileTree

variable {β : Type} (t : FileTree β)

def pathExists (p : Path) : Bool := (t.node p).isSome

def without (p : Path) (hp : p ≠ []) : FileTree β where
  node q := if p <+: q then none else t.node q
  root := by
    rw [if_neg fun h => hp (List.prefix_nil.mp h), t.root]
  parent q name h := by
    split at h
    case isTrue => exact absurd rfl h
    case isFalse hq => rw [if_neg fun hp => hq (hp.trans (List.prefix_append q [name])), t.parent q name h]

def withDir (p : Path) : FileTree β where
  node q := if q <+: p then some .dir else t.node q
  root := if_pos List.nil_prefix
  parent q name h := by
    by_cases hq : q <+: p
    · rw [if_pos hq]
    · rw [if_neg fun hname => hq ((List.prefix_append q [name]).trans hname)] at h
      rw [if_neg hq, t.parent q name h]

def withFile (p : Path) (name : Text) (content : β) (hp : t.node p = some .dir)
    (hname : t.node (p ++ [name]) ≠ some .dir) : FileTree β where
  node q := if q = p ++ [name] then some (.file content) else t.node q
  root := by
    rw [if_neg (by simp), t.root]
  parent q name' h := by
    by_cases hq : q ++ [name'] = p ++ [name]
    · obtain ⟨rfl, -⟩ := List.append_inj' hq rfl
      rw [if_neg (by simp), hp]
    · rw [if_neg hq] at h
      have hdir := t.parent q name' h
      have hne : q ≠ p ++ [name] := by
        rintro rfl
        exact hname hdir
      rw [if_neg hne, hdir]

def withoutFile (p : Path) (content : β) (hp : t.node p = some (.file content)) : FileTree β where
  node q := if q = p then none else t.node q
  root := by
    have hne : p ≠ [] := by
      rintro rfl
      rw [t.root] at hp
      cases hp
    rw [if_neg hne.symm, t.root]
  parent q name h := by
    split at h
    case isTrue => exact absurd rfl h
    case isFalse =>
      have hdir := t.parent q name h
      have hne : q ≠ p := by
        rintro rfl
        rw [hp] at hdir
        cases hdir
      rw [if_neg hne, hdir]

def removeDirAll (p : Path) : Except IoError (FileTree β) :=
  match t.node p with
  | none => .error .NotFound
  | some (.file _) => .error .NotADirectory
  | some .dir => if hp : p = [] then .error .InvalidInput else .ok (t.without p hp)

def isFile (p : Path) : Bool :=
  match t.node p with
  | some (.file _) => true
  | _ => false

def createDirAll (p : Path) : Except IoError (FileTree β) :=
  if p.inits.any t.isFile then .error .NotADirectory else .ok (t.withDir p)

def writeFile (p : Path) (name : Text) (content : β) : Except IoError (FileTree β) :=
  match hp : t.node p with
  | none => .error .NotFound
  | some (.file _) => .error .NotADirectory
  | some .dir =>
    match hname : t.node (p ++ [name]) with
    | some .dir => .error .IsADirectory
    | none => .ok (t.withFile p name content hp (by rw [hname]; exact nofun))
    | some (.file _) => .ok (t.withFile p name content hp (by rw [hname]; exact nofun))

def removeFile (p : Path) : Except IoError (FileTree β) :=
  match hp : t.node p with
  | none => .error .NotFound
  | some .dir => .error .IsADirectory
  | some (.file content) => .ok (t.withoutFile p content hp)

variable {t} {t' : FileTree β} {p : Path}

theorem removeDirAll_ok (h : t.node p = some .dir) (hp : p ≠ []) :
    ∃ t', t.removeDirAll p = .ok t' ∧ ∀ q, t'.node q = if p <+: q then none else t.node q := by
  refine ⟨t.without p hp, ?_, fun _ => rfl⟩
  rw [removeDirAll, h]
  exact dif_neg hp

theorem createDirAll_ok (h : ∀ q, q <+: p → t.isFile q = false) :
    ∃ t', t.createDirAll p = .ok t' ∧ ∀ q, t'.node q = if q <+: p then some .dir else t.node q := by
  refine ⟨t.withDir p, if_neg ?_, fun _ => rfl⟩
  rw [List.any_eq_true]
  rintro ⟨q, hq, hfile⟩
  rw [h q ((List.mem_inits q p).mp hq)] at hfile
  cases hfile

theorem writeFile_ok {name : Text} (content : β) (hp : t.node p = some .dir)
    (hname : t.node (p ++ [name]) ≠ some .dir) :
    ∃ t', t.writeFile p name content = .ok t' ∧
      ∀ q, t'.node q = if q = p ++ [name] then some (.file content) else t.node q := by
  refine ⟨t.withFile p name content hp hname, ?_, fun _ => rfl⟩
  unfold writeFile
  split
  case h_1 h => cases hp.symm.trans h
  case h_2 h => cases hp.symm.trans h
  case h_3 =>
    split
    case h_1 h => exact absurd h hname
    case h_2 => rfl
    case h_3 => rfl

theorem writeFile_node {name : Text} {content : β} {q : Path} (hq : q ≠ p ++ [name]) :
    ((t.writeFile p name content).toOption.getD t).node q = t.node q := by
  unfold writeFile
  split
  case h_1 => rfl
  case h_2 => rfl
  case h_3 =>
    split
    case h_1 => rfl
    case h_2 => exact if_neg hq
    case h_3 => exact if_neg hq

theorem removeFile_ok {content : β} (h : t.node p = some (.file content)) :
    ∃ t', t.removeFile p = .ok t' ∧ ∀ q, t'.node q = if q = p then none else t.node q := by
  refine ⟨t.withoutFile p content h, ?_, fun _ => rfl⟩
  unfold removeFile
  split
  case h_1 h' => cases h.symm.trans h'
  case h_2 h' => cases h.symm.trans h'
  case h_3 => rfl

/-- Everything on the way to what is there is a directory. -/
theorem node_of_prefix {q r : Path} (hqr : q <+: r) (hne : q ≠ r) (hr : t.node r ≠ none) :
    t.node q = some .dir := by
  obtain ⟨rest, rfl⟩ := hqr
  induction rest using List.reverseRecOn with
  | nil => exact absurd (List.append_nil q).symm hne
  | append_singleton rest name ih =>
    rw [← List.append_assoc] at hr
    have hdir := t.parent _ _ hr
    by_cases hrest : q = q ++ rest
    · rw [← hrest] at hdir
      exact hdir
    · exact ih hrest (by rw [hdir]; exact Option.some_ne_none _)

/-- The files of a directory that has no directories in it; `none` where it is not there. -/
abbrev Listing (β : Type) := Option (Text → Option β)

def Listing.node : Listing β → Path → Option (FileNode β)
  | none, _ => none
  | some _, [] => some .dir
  | some files, [name] => (files name).map .file
  | some _, _ :: _ :: _ => none

def Holds (t : FileTree β) (dir : Path) (files : Listing β) : Prop :=
  ∀ q, t.node (dir ++ q) = files.node q

/-- Neither lies in the other. -/
def Apart (p q : Path) : Prop := ¬p <+: q ∧ ¬q <+: p

/-- Nothing has changed but `dir`, what is in it, and the way to it. -/
def ChangedIn (dir : Path) (t t' : FileTree β) : Prop :=
  ∀ q, ¬dir <+: q → t'.node q = if q <+: dir then some .dir else t.node q

variable {dir : Path} {files : Listing β}

theorem Apart.symm {q : Path} (h : Apart p q) : Apart q p := ⟨h.2, h.1⟩

instance : Std.Symm Apart := ⟨fun _ _ h => h.symm⟩

theorem Apart.append {q : Path} (h : Apart dir p) : Apart dir (p ++ q) := by
  refine ⟨fun hdir => ?_, fun hpq => h.2 ((List.prefix_append p q).trans hpq)⟩
  rcases List.prefix_or_prefix_of_prefix hdir (List.prefix_append p q) with hle | hle
  · exact h.1 hle
  · exact h.2 hle

/-- Nothing has changed that lies apart. -/
def KeptApart (dir : Path) (t t' : FileTree β) : Prop := ∀ q, Apart dir q → t'.node q = t.node q

theorem ChangedIn.keptApart (h : ChangedIn dir t t') : KeptApart dir t t' := by
  intro q hq
  rw [h q hq.1, if_neg hq.2]

theorem ChangedIn.trans {t'' : FileTree β} (h : ChangedIn dir t t') (h' : ChangedIn dir t' t'') :
    ChangedIn dir t t'' := by
  intro q hq
  rw [h' q hq, h q hq]
  split <;> rfl

/-- A directory elsewhere is as it was. -/
theorem Holds.frame (h : t.Holds p files) (hkept : KeptApart dir t t') (hp : Apart dir p) :
    t'.Holds p files := by
  intro q
  rw [hkept _ hp.append, h q]

theorem holds_none : t.Holds dir none ↔ t.node dir = none := by
  constructor
  · intro h
    rw [← List.append_nil dir]
    exact h []
  · intro h q
    by_contra hne
    have hdir : t.node dir = some .dir := by
      by_cases hq : dir = dir ++ q
      · rw [← hq, h] at hne
        exact absurd rfl hne
      · exact node_of_prefix (List.prefix_append dir q) hq hne
    rw [h] at hdir
    cases hdir

theorem Holds.isDir {files : Text → Option β} (h : t.Holds dir (some files)) :
    t.node dir = some .dir := by
  rw [← List.append_nil dir]
  exact h []

theorem Holds.exists {files : Text → Option β} (h : t.Holds dir (some files)) :
    t.pathExists dir = true := by
  rw [pathExists, h.isDir]
  rfl

theorem writeFile_holds {files : Text → Option β} (h : t.Holds dir (some files)) (name : Text)
    (content : β) : ∃ t', t.writeFile dir name content = .ok t' ∧
      t'.Holds dir (some (Function.update files name (some content))) ∧
      ∀ q, ¬dir <+: q → t'.node q = t.node q := by
  have hdir := h.isDir
  have hname : t.node (dir ++ [name]) ≠ some .dir := by
    rw [h [name], Listing.node]
    cases files name <;> exact nofun
  obtain ⟨t', hok, hnode⟩ := writeFile_ok content hdir hname
  refine ⟨t', hok, fun q => ?_, fun q hq => ?_⟩
  · rw [hnode, h q]
    match q with
    | [] => rw [if_neg (by simp)]; rfl
    | [other] =>
      by_cases hother : other = name
      · subst hother
        rw [if_pos rfl, Listing.node, Function.update_self]
        rfl
      · rw [if_neg (by simpa using hother), Listing.node, Listing.node,
          Function.update_of_ne hother]
    | _ :: _ :: _ => rw [if_neg (by simp)]; rfl
  · rw [hnode, if_neg]
    rintro rfl
    exact hq (List.prefix_append dir [name])

theorem removeFile_holds {files : Text → Option β} (h : t.Holds dir (some files)) {name : Text}
    {content : β} (hname : files name = some content) : ∃ t', t.removeFile (dir ++ [name]) = .ok t' ∧
      t'.Holds dir (some (Function.update files name none)) ∧
      ∀ q, ¬dir <+: q → t'.node q = t.node q := by
  have hfile : t.node (dir ++ [name]) = some (.file content) := by
    rw [h [name], Listing.node, hname]
    rfl
  obtain ⟨t', hok, hnode⟩ := removeFile_ok hfile
  refine ⟨t', hok, fun q => ?_, fun q hq => ?_⟩
  · rw [hnode, h q]
    match q with
    | [] => rw [if_neg (by simp)]; rfl
    | [other] =>
      by_cases hother : other = name
      · subst hother
        rw [if_pos rfl, Listing.node, Function.update_self]
        rfl
      · rw [if_neg (by simpa using hother), Listing.node, Listing.node,
          Function.update_of_ne hother]
    | _ :: _ :: _ => rw [if_neg (by simp)]; rfl
  · rw [hnode, if_neg]
    rintro rfl
    exact hq (List.prefix_append dir [name])

theorem createDirAll_holds (h : t.Holds dir none) (hway : ∀ q, q <+: dir → t.isFile q = false) :
    ∃ t', t.createDirAll dir = .ok t' ∧ t'.Holds dir (some fun _ => none) ∧ ChangedIn dir t t' := by
  obtain ⟨t', hok, hnode⟩ := createDirAll_ok hway
  refine ⟨t', hok, fun q => ?_, fun q _ => hnode q⟩
  rw [hnode]
  match q with
  | [] => rw [if_pos (by simp)]; rfl
  | name :: q =>
    have hlonger : ¬dir ++ name :: q <+: dir := by
      intro hle
      have hlength := hle.length_le
      rw [List.length_append, List.length_cons] at hlength
      omega
    rw [if_neg hlonger, h]
    cases q <;> rfl

theorem removeDirAll_holds {files : Text → Option β} (h : t.Holds dir (some files)) (hdir : dir ≠ []) :
    ∃ t', t.removeDirAll dir = .ok t' ∧ t'.Holds dir none ∧
      ∀ q, ¬dir <+: q → t'.node q = t.node q := by
  obtain ⟨t', hok, hnode⟩ := removeDirAll_ok h.isDir hdir
  refine ⟨t', hok, holds_none.mpr ?_, fun q hq => ?_⟩
  · rw [hnode, if_pos List.prefix_rfl]
  · rw [hnode, if_neg hq]

theorem changedIn_of_inside (h : t.node dir = some .dir)
    (hsame : ∀ q, ¬dir <+: q → t'.node q = t.node q) : ChangedIn dir t t' := by
  intro q hq
  rw [hsame q hq]
  split
  case isTrue hle =>
    have hne : q ≠ dir := by
      rintro rfl
      exact hq List.prefix_rfl
    exact node_of_prefix hle hne (by rw [h]; exact Option.some_ne_none _)
  case isFalse => rfl

end FileTree
end MoveTools
