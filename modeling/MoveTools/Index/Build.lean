import MoveTools.Library.Runs
import MoveTools.Index.Store

namespace MoveTools.Index.Build
open Store Runs

structure Git where
  git : Text
  branch : Option Text
  rev : Option Text
  deriving DecidableEq

/-- External dependencies. -/
inductive Dependence where
  | Git (git : Git)
  | Path (path : Text)
  deriving DecidableEq

/-- The contents of dependency directories, the dependencies that the manifest in one of them
declares (if there is one that can be read), and the hexadecimal digits of a Sha3-256 digest. -/
structure Env where
  Dir : Type
  dependencies : Dir → Option (List Dependence)
  digest : Text → Text

def Git.PREFIX : Text := "git".toList

def Chain.PREFIX : Text := "chain".toList

def Git.makeLocalName (env : Env) (git : Git) : Text :=
  PREFIX ++ "_".toList ++ env.digest (git.git ++ git.branch.getD [] ++ git.rev.getD [])

section
variable (env : Env)

abbrev Dirs := List (Text × env.Dir)

/-- What a build finds: the dependencies of the manifest, what cloning and checking out gives, the
order in which a directory is read, and the metadata of sources. `none` stands for an error.
`fuel` bounds how deeply the manifests of dependencies are followed. -/
structure Input where
  fuel : ℕ
  dependencies : Option (List Dependence)
  clone : Git → Option env.Dir
  pathExists : Text → Bool
  readDir : Dirs env → Dirs env
  gitMeta : env.Dir → Option (List FileMeta)
  chainMeta : env.Dir → Option (List FileMeta)
  localMeta : Text → Option (List FileMeta)

/-- The directory of the project: the dependency directories, the stored index, and the
dependencies of the manifest that it was built with. -/
structure Project where
  dirs : Dirs env
  index : Option ModulesIndex
  dependencies : Option (List Dependence)

variable {env}

/-- `git::resolve`: what has been cloned once stays as it is. -/
def gitResolve (input : Input env) (git : Git) (dirs : Dirs env) : Option (Dirs env) :=
  let name := git.makeLocalName env
  if name ∈ dirs.map Prod.fst then some dirs
  else (input.clone git).map fun dir => dirs ++ [(name, dir)]

def loadDep (input : Input env) (loadDeps : List Dependence → Dirs env → Option (Dirs env))
    (dirs : Dirs env) : Dependence → Option (Dirs env)
  | .Git git => do
    let dirs ← gitResolve input git dirs
    match (dirs.lookup (git.makeLocalName env)).bind env.dependencies with
    | some deps => loadDeps deps dirs
    | none => some dirs
  | .Path path => if input.pathExists path then some dirs else none

def loadDeps (input : Input env) : ℕ → List Dependence → Dirs env → Option (Dirs env)
  | 0, _, _ => none
  | fuel + 1, deps, dirs => deps.foldlM (loadDep input (loadDeps input fuel)) dirs

/-- The dependency directories when everything the manifest declares has been cloned. -/
def loadManifest (input : Input env) (dirs : Dirs env) : Option (Dirs env) :=
  match input.dependencies with
  | some deps => loadDeps input input.fuel deps dirs
  | none => some dirs

/-- `Index::load`: the modules and the names of their dependencies. -/
def load (index : Option ModulesIndex) : ModulesIndex × List Text :=
  match index with
  | some stored => (stored.foldl .insert [], stored.map Module.depName)
  | none => ([], [])

/-- Only directories that no stored module comes from are read. -/
def indexDir (input : Input env) (depNames : List Text) (modules : ModulesIndex)
    (entry : Text × env.Dir) : Option ModulesIndex :=
  let (name, dir) := entry
  if name ∈ depNames then some modules
  else if Git.PREFIX.isPrefixOf name then
    (input.gitMeta dir).map fun files => modules.storeMeta files .Git name
  else if Chain.PREFIX.isPrefixOf name then
    (input.chainMeta dir).map fun files => modules.storeMeta files .Chain name
  else some modules

def indexDepsFor (input : Input env) (modules : ModulesIndex) : Dependence → Option ModulesIndex
  | .Git _ => some modules
  | .Path path => (input.localMeta path).map fun files => modules.storeMeta files .Local path

/-- `Index::load` followed by `build`. -/
def build (project : Project env) (input : Input env) : Option (Project env) := do
  let dirs ← loadManifest input project.dirs
  let (modules, depNames) := load project.index
  let modules := modules.filter fun m => m.sourceType ≠ .Local
  let modules ← (input.readDir dirs).foldlM (indexDir input depNames) modules
  let modules ← (input.dependencies.getD []).foldlM (indexDepsFor input) modules
  return ⟨dirs, some modules, input.dependencies⟩

/-- Declared in the manifest of the project or, transitively, in that of a declared dependency. -/
inductive Declared (dirs : Dirs env) (deps : Option (List Dependence)) : Git → Prop
  | project {git : Git} (h : .Git git ∈ deps.getD []) : Declared dirs deps git
  | dependency {git git' : Git} {dir : env.Dir} (h : Declared dirs deps git)
      (hdir : dirs.lookup (git.makeLocalName env) = some dir)
      (hdep : .Git git' ∈ (env.dependencies dir).getD []) : Declared dirs deps git'

def Belongs (dirs : Dirs env) (deps : Option (List Dependence)) (name : Text) : Prop :=
  ∃ git, Declared dirs deps git ∧ git.makeLocalName env = name

/-- The modules from git that are found come from declared dependencies. -/
def NothingStale (project : Project env) : Prop :=
  ∀ modules, project.index = some modules → ∀ name module,
    modules.getModule name = some module → module.sourceType = .Git →
    Belongs project.dirs project.dependencies module.depName

/-- No directory of a git dependency is left that the new manifest does not declare. -/
def DropsNothing (_ : List (Input env)) (project : Project env) (input : Input env) : Prop :=
  ∀ dirs, loadManifest input project.dirs = some dirs →
    ∀ entry ∈ project.dirs, Git.PREFIX.isPrefixOf entry.1 → Belongs dirs input.dependencies entry.1

theorem Declared.mono {dirs dirs' : Dirs env} {deps : Option (List Dependence)} {git : Git}
    (hgrow : ∀ name dir, dirs.lookup name = some dir → dirs'.lookup name = some dir)
    (h : Declared dirs deps git) : Declared dirs' deps git := by
  induction h with
  | project h => exact .project h
  | dependency _ hdir hdep ih => exact .dependency ih (hgrow _ _ hdir) hdep

theorem Declared.trans {dirs : Dirs env} {deps deps' : Option (List Dependence)} {git : Git}
    (hdeps : ∀ git, .Git git ∈ deps'.getD [] → Declared dirs deps git)
    (h : Declared dirs deps' git) : Declared dirs deps git := by
  induction h with
  | project h => exact hdeps _ h
  | dependency _ hdir hdep ih => exact .dependency ih hdir hdep

/-- `dirs'` has the directories `dirs`, and others that belong to dependencies of `deps`. -/
structure Grows (dirs dirs' : Dirs env) (deps : List Dependence) : Prop where
  keep : ∀ entry ∈ dirs, entry ∈ dirs'
  lookup : ∀ name dir, dirs.lookup name = some dir → dirs'.lookup name = some dir
  new : ∀ entry ∈ dirs', entry ∈ dirs ∨ Belongs dirs' (some deps) entry.1

theorem Grows.refl (dirs : Dirs env) (deps : List Dependence) : Grows dirs dirs deps :=
  ⟨fun _ h => h, fun _ _ h => h, fun _ h => .inl h⟩

theorem Grows.trans {dirs dirs' dirs'' : Dirs env} {deps : List Dependence}
    (h : Grows dirs dirs' deps) (h' : Grows dirs' dirs'' deps) : Grows dirs dirs'' deps where
  keep entry he := h'.keep entry (h.keep entry he)
  lookup name dir hd := h'.lookup name dir (h.lookup name dir hd)
  new entry he := by
    rcases h'.new entry he with he | he
    · rcases h.new entry he with he | ⟨git, hgit, hname⟩
      · exact .inl he
      · exact .inr ⟨git, hgit.mono h'.lookup, hname⟩
    · exact .inr he

theorem gitResolve_grows {input : Input env} {git : Git} {dirs dirs' : Dirs env}
    (h : gitResolve input git dirs = some dirs') :
    Grows dirs dirs' [.Git git] := by
  simp only [gitResolve] at h
  split at h
  · cases h
    exact .refl dirs _
  · obtain ⟨dir, _, rfl⟩ := Option.map_eq_some_iff.mp h
    refine ⟨fun entry he => List.mem_append_left _ he, ?_, ?_⟩
    · intro name dir' hd
      rw [List.lookup_append, hd, Option.some_or]
    · intro entry he
      rw [List.mem_append, List.mem_singleton] at he
      rcases he with he | rfl
      · exact .inl he
      · exact .inr ⟨git, .project (List.mem_singleton_self _), rfl⟩

theorem Grows.widen {dirs dirs' : Dirs env} {deps deps' : List Dependence}
    (h : Grows dirs dirs' deps') (hdeps : ∀ git, .Git git ∈ deps' →
      Declared dirs' (some deps) git) : Grows dirs dirs' deps where
  keep := h.keep
  lookup := h.lookup
  new entry he := (h.new entry he).imp_right fun ⟨git, hgit, hname⟩ =>
    ⟨git, Declared.trans (by simpa using hdeps) hgit, hname⟩

theorem loadDep_grows {input : Input env} {rec : List Dependence → Dirs env → Option (Dirs env)}
    (hrec : ∀ {deps dirs dirs'}, rec deps dirs = some dirs' → Grows dirs dirs' deps)
    {dep : Dependence} {dirs dirs' : Dirs env}
    (h : loadDep input rec dirs dep = some dirs') : Grows dirs dirs' [dep] := by
  cases dep with
  | Path path =>
    simp only [loadDep, Option.ite_none_right_eq_some, Option.some.injEq] at h
    rw [← h.2]
    exact .refl dirs _
  | Git git =>
    obtain ⟨dirs1, hclone, h⟩ := Option.bind_eq_some_iff.mp h
    have hgrow := gitResolve_grows hclone
    cases hdeps : (dirs1.lookup (git.makeLocalName env)).bind env.dependencies with
    | none =>
      simp only [hdeps, Option.some.injEq] at h
      rw [← h]
      exact hgrow
    | some deps =>
      simp only [hdeps] at h
      obtain ⟨dir, hdir, hmanifest⟩ := Option.bind_eq_some_iff.mp hdeps
      have hrest := hrec h
      -- what the dependency declares is declared by declaring it
      apply hgrow.trans (hrest.widen fun git' hgit' => ?_)
      apply Declared.dependency (.project (List.mem_singleton_self _)) (hrest.lookup _ _ hdir)
      rw [hmanifest]
      exact hgit'

theorem loadDeps_grows {input : Input env} {fuel : ℕ} {deps : List Dependence}
    {dirs dirs' : Dirs env} (h : loadDeps input fuel deps dirs = some dirs') :
    Grows dirs dirs' deps := by
  induction fuel generalizing deps dirs dirs' with
  | zero => cases h
  | succ fuel ih =>
    apply foldlM_preserves (I := fun dirs1 => Grows dirs dirs1 deps) (fun hd hload hgrow => ?_) h
      (.refl dirs deps)
    -- what one dependency adds is declared by the list it stands in
    apply hgrow.trans ((loadDep_grows ih hload).widen fun git hgit => ?_)
    rw [List.mem_singleton] at hgit
    exact .project (hgit ▸ hd)

theorem loadManifest_grows {input : Input env} {dirs dirs' : Dirs env}
    (h : loadManifest input dirs = some dirs') :
    (∀ entry ∈ dirs, entry ∈ dirs') ∧
      ∀ entry ∈ dirs', entry ∈ dirs ∨ Belongs dirs' input.dependencies entry.1 := by
  unfold loadManifest at h
  cases hdeps : input.dependencies with
  | none =>
    simp only [hdeps, Option.some.injEq] at h
    rw [← h]
    exact ⟨fun _ he => he, fun _ he => .inl he⟩
  | some deps =>
    simp only [hdeps] at h
    have hgrow := loadDeps_grows h
    exact ⟨hgrow.keep, hgrow.new⟩

/-- Modules from git come from the dependency directories. -/
def FromDirs (dirs : Dirs env) (modules : ModulesIndex) : Prop :=
  ∀ m ∈ modules, m.sourceType = .Git →
    m.depName ∈ dirs.map Prod.fst ∧ Git.PREFIX.isPrefixOf m.depName

theorem FromDirs.storeMeta {dirs : Dirs env} {modules : ModulesIndex} (h : FromDirs dirs modules)
    {files : List FileMeta} {srcType : SourceType} {name : Text}
    (hname : srcType = .Git → name ∈ dirs.map Prod.fst ∧ Git.PREFIX.isPrefixOf name) :
    FromDirs dirs (modules.storeMeta files srcType name) := by
  have hunits : ∀ path (units : List DefinitionMeta) modules, FromDirs dirs modules →
      FromDirs dirs (units.foldl (ModulesIndex.storeUnit srcType name path) modules) := by
    intro path units
    induction units with
    | nil => exact fun _ h => h
    | cons unit units ih =>
      intro modules h
      apply ih
      intro m hm htype
      rw [ModulesIndex.storeUnit, ModulesIndex.insert, List.mem_cons] at hm
      rcases hm with rfl | hm
      · exact hname htype
      · exact h m (List.mem_of_mem_filter hm) htype
  unfold ModulesIndex.storeMeta
  induction files generalizing modules with
  | nil => exact h
  | cons file files ih => exact ih (hunits _ _ _ h)

theorem foldl_insert_fromDirs {dirs : Dirs env} {stored modules : ModulesIndex}
    (hstored : FromDirs dirs stored) (h : FromDirs dirs modules) :
    FromDirs dirs (stored.foldl .insert modules) := by
  induction stored generalizing modules with
  | nil => exact h
  | cons m stored ih =>
    apply ih (fun k hk => hstored k (List.mem_cons_of_mem _ hk))
    intro k hk htype
    rw [ModulesIndex.insert, List.mem_cons] at hk
    rcases hk with rfl | hk
    · exact hstored k List.mem_cons_self htype
    · exact h k (List.mem_of_mem_filter hk) htype

theorem foldlM_fromDirs {α : Type} {dirs : Dirs env} {f : ModulesIndex → α → Option ModulesIndex}
    {xs : List α} (hf : ∀ x ∈ xs, ∀ modules modules', FromDirs dirs modules →
      f modules x = some modules' → FromDirs dirs modules')
    {modules modules' : ModulesIndex} (h : FromDirs dirs modules)
    (hrun : xs.foldlM f modules = some modules') : FromDirs dirs modules' := by
  induction xs generalizing modules with
  | nil =>
    cases hrun
    exact h
  | cons x xs ih =>
    rw [List.foldlM_cons] at hrun
    obtain ⟨modules1, hx, hrun⟩ := Option.bind_eq_some_iff.mp hrun
    exact ih (fun y hy => hf y (List.mem_cons_of_mem _ hy))
      (hf x List.mem_cons_self _ _ h hx) hrun

theorem indexDir_fromDirs {input : Input env} {depNames : List Text} {dirs : Dirs env}
    {modules modules' : ModulesIndex} {entry : Text × env.Dir} (he : entry ∈ dirs)
    (h : FromDirs dirs modules) (hrun : indexDir input depNames modules entry = some modules') :
    FromDirs dirs modules' := by
  have hmem : entry.1 ∈ dirs.map Prod.fst := List.mem_map_of_mem he
  simp only [indexDir] at hrun
  split at hrun
  · cases hrun
    exact h
  · split at hrun
    · rename_i hprefix
      obtain ⟨files, _, rfl⟩ := Option.map_eq_some_iff.mp hrun
      exact h.storeMeta fun _ => ⟨hmem, hprefix⟩
    · split at hrun
      · obtain ⟨files, _, rfl⟩ := Option.map_eq_some_iff.mp hrun
        exact h.storeMeta fun htype => by cases htype
      · cases hrun
        exact h

theorem indexDepsFor_fromDirs {input : Input env} {dirs : Dirs env}
    {modules modules' : ModulesIndex} {dep : Dependence} (h : FromDirs dirs modules)
    (hrun : indexDepsFor input modules dep = some modules') : FromDirs dirs modules' := by
  cases dep with
  | Git git =>
    cases hrun
    exact h
  | Path path =>
    obtain ⟨files, _, rfl⟩ := Option.map_eq_some_iff.mp hrun
    exact h.storeMeta fun htype => by cases htype

def ReadsDir (input : Input env) : Prop := ∀ dirs, (input.readDir dirs).Perm dirs

/-- What is stored comes from directories that are still there, and the last build left nothing
stale. -/
structure Kept (project : Project env) : Prop where
  fromDirs : ∀ modules, project.index = some modules → FromDirs project.dirs modules
  nothingStale : NothingStale project

theorem getModule_mem {index : ModulesIndex} {name : ModuleId} {m : Module}
    (h : index.getModule name = some m) : m ∈ index := by
  simp only [ModulesIndex.getModule, Option.or_eq_some_iff] at h
  rcases h with h | ⟨_, h | ⟨_, h⟩⟩
  · exact (ModulesIndex.entry_eq_some h).1
  · exact (ModulesIndex.entry_eq_some h).1
  · exact (ModulesIndex.entry_eq_some h).1

/-- A build that drops no dependency leaves nothing stale. -/
theorem build_kept {project project' : Project env} {input : Input env} {history : List (Input env)}
    (h : Kept project) (hread : ReadsDir input) (hdrops : DropsNothing history project input)
    (hbuild : build project input = some project') : Kept project' := by
  obtain ⟨dirs, hdirs, hbuild⟩ := Option.bind_eq_some_iff.mp hbuild
  obtain ⟨modules1, hmodules1, hbuild⟩ := Option.bind_eq_some_iff.mp hbuild
  obtain ⟨modules2, hmodules2, hbuild⟩ := Option.bind_eq_some_iff.mp hbuild
  cases hbuild
  obtain ⟨hkeep, hnew⟩ := loadManifest_grows hdirs
  have hload : FromDirs dirs (load project.index).1 := by
    unfold load
    cases hindex : project.index with
    | none => exact fun m hm => by simp at hm
    | some stored =>
      have hstored := h.fromDirs stored hindex
      apply foldl_insert_fromDirs
      · intro m hm htype
        exact ⟨List.map_subset _ hkeep (hstored m hm htype).1, (hstored m hm htype).2⟩
      · exact fun m hm => by simp at hm
  have hlocal : FromDirs dirs ((load project.index).1.filter fun m => m.sourceType ≠ .Local) :=
    fun m hm => hload m (List.mem_of_mem_filter hm)
  have h1 : FromDirs dirs modules1 := foldlM_fromDirs
    (fun entry he _ _ => indexDir_fromDirs ((hread dirs).mem_iff.mp he)) hlocal hmodules1
  have h2 : FromDirs dirs modules2 := foldlM_fromDirs
    (fun _ _ _ _ => indexDepsFor_fromDirs) h1 hmodules2
  constructor
  · intro modules hmodules
    cases hmodules
    exact h2
  · intro modules hmodules name m hm htype
    cases hmodules
    obtain ⟨hdir, hprefix⟩ := h2 m (getModule_mem hm) htype
    obtain ⟨entry, he, hname⟩ := List.mem_map.mp hdir
    -- the directory was there and is declared, or has just been cloned
    rcases hnew entry he with hold | hbelongs
    · rw [← hname] at hprefix ⊢
      exact hdrops dirs hdirs entry hold hprefix
    · exact hname ▸ hbelongs

/-- Without an index, whatever has been cloned. -/
def fresh (dirs : Dirs env) (deps : Option (List Dependence)) : Project env := ⟨dirs, none, deps⟩

theorem fresh_kept (dirs : Dirs env) (deps : Option (List Dependence)) :
    Kept (fresh dirs deps) :=
  ⟨fun _ h => (by cases h), fun _ h => (by cases h)⟩

/-- As long as no build drops a dependency, the modules that are found come from the dependencies
that are declared. -/
theorem gitModules_declared (env : Env) (dirs : Dirs env) (deps : Option (List Dependence))
    (history : List (Input env)) (project : Project env)
    (h : Run build (fun history project input => ReadsDir input ∧
      DropsNothing history project input) (fresh dirs deps) history project) :
    NothingStale project := by
  have hkept : Kept project := h.invariant (I := fun _ => Kept) (fresh_kept dirs deps)
    fun hk hok hbuild => build_kept hk hok.1 hok.2 hbuild
  exact hkept.nothingStale

end

def plainEnv : Env where
  Dir := List FileMeta
  dependencies _ := none
  digest text := text

def moduleM : ModuleId := ⟨[1], "M"⟩

/-- A build with the given dependencies; every repository holds the module `M`. -/
def plainInput (dependencies : Option (List Dependence)) : Input plainEnv where
  fuel := 1
  dependencies
  clone _ := some [⟨"M.move".toList, [⟨moduleM, []⟩]⟩]
  pathExists _ := true
  readDir dirs := dirs
  gitMeta dir := some dir
  chainMeta dir := some dir
  localMeta _ := some []

def someGit : Git := ⟨"m.git".toList, none, none⟩

def addAndDrop : List (Input plainEnv) :=
  [plainInput (some [.Git someGit]), plainInput none]

theorem not_declared_none {dirs : Dirs plainEnv} {git : Git} : ¬Declared dirs none git := by
  intro h
  induction h with
  | project h => simp at h
  | dependency _ _ _ ih => exact ih

def leftover : Module :=
  ⟨moduleM, someGit.makeLocalName plainEnv, "M.move".toList, .Git, []⟩

theorem dropped_found : ∃ project : Project plainEnv,
    Run build (fun _ _ input => ReadsDir input) (fresh [] none) addAndDrop project ∧
      ¬NothingStale project := by
  have hrun : addAndDrop.foldlM build (fresh [] none) =
      some ⟨[(leftover.depName, [⟨"M.move".toList, [⟨moduleM, []⟩]⟩])], some [leftover], none⟩ :=
    rfl
  refine ⟨_, .of_foldlM (fun input hinput _ _ => ?_) hrun, ?_⟩
  · simp only [addAndDrop, List.mem_cons, List.not_mem_nil, or_false] at hinput
    rcases hinput with rfl | rfl
    · exact fun dirs => .refl dirs
    · exact fun dirs => .refl dirs
  · intro h
    obtain ⟨git, hgit, _⟩ := h [leftover] rfl moduleM leftover rfl rfl
    exact not_declared_none hgit

theorem gitModules_declared_added : ∃ project : Project plainEnv,
    build (fresh [] none) (plainInput (some [.Git someGit])) = some project ∧
      NothingStale project := by
  obtain ⟨project, hproject⟩ : ∃ project : Project plainEnv,
      build (fresh [] none) (plainInput (some [.Git someGit])) = some project := ⟨_, rfl⟩
  refine ⟨project, hproject, gitModules_declared plainEnv [] none
    [plainInput (some [.Git someGit])] project ?_⟩
  apply Run.next .start ?_ hproject
  exact ⟨fun dirs => .refl dirs, fun dirs _ entry he => by simp [fresh] at he⟩

end MoveTools.Index.Build
