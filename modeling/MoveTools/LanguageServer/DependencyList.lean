import MoveTools.Library.Tokens
import MoveTools.LanguageServer.Analysis

namespace MoveTools.LanguageServer
open Compiler

/-- `Path::components`: repeated separators do not count, and neither does a `.` behind the start. -/
def components (path : Text) : List Text :=
  let parts := Text.tokens (· != '/') path
  let names := parts.filter fun part => part ≠ [] ∧ part ≠ ['.']
  if path.head? = some '/' then ['/'] :: names
  else if parts.head? = some ['.'] then ['.'] :: names
  else names

def contains (folder path : Text) : Bool := (components folder).isPrefixOf (components path)

structure DirEntry where
  path : Text
  isFile : Bool

/-- What is asked of the disk. A walk comes to every entry below a folder once; `none` stands for an
error of one of them. -/
structure FileTree where
  pathExists : Text → Bool
  isFile : Text → Bool
  walk : Text → Option (List DirEntry)
  read : Text → Option Text
  walk_nodup : ∀ {folder entries}, walk folder = some entries → (entries.map DirEntry.path).Nodup

namespace FileTree

/-- A file whose name does not start with a dot, with the extension `move`. -/
def isMoveFile (entry : DirEntry) : Bool :=
  let fileName := (components entry.path).getLast?.getD []
  entry.isFile && fileName.head? != some '.' && ".move".toList.isSuffixOf fileName

variable (tree : FileTree)

def findMoveFiles (path : Text) : Option (List Text) :=
  (tree.walk path).map fun entries => (entries.filter isMoveFile).map DirEntry.path

def load (path : Text) : Option MoveFile := (tree.read path).map fun content => ⟨path, content⟩

/-- What one path adds to the files. -/
def loadPath (path : Text) : Option (List MoveFile) :=
  if tree.pathExists path then
    if tree.isFile path then (tree.load path).map ([·])
    else (tree.findMoveFiles path).bind fun paths => paths.mapM tree.load
  else none

def loadMoveFiles (paths : List Text) : Option (List MoveFile) :=
  (paths.mapM tree.loadPath).map List.flatten

def disk : Disk := ⟨tree.pathExists, tree.loadMoveFiles⟩

variable {tree} {path : Text} {files : List MoveFile}

theorem names_mapM_load {paths : List Text} (h : paths.mapM tree.load = some files) :
    files.map MoveFile.name = paths := by
  induction paths generalizing files with
  | nil =>
    cases h
    rfl
  | cons path paths ih =>
    rw [List.mapM_cons] at h
    obtain ⟨file, hfile, h⟩ := Option.bind_eq_some_iff.mp h
    obtain ⟨rest, hrest, heq⟩ := Option.bind_eq_some_iff.mp h
    obtain ⟨content, -, rfl⟩ := Option.map_eq_some_iff.mp hfile
    cases heq
    rw [List.map_cons, ih hrest]

theorem loadPath_nodup (h : tree.loadPath path = some files) : (files.map MoveFile.name).Nodup := by
  rw [loadPath] at h
  split at h
  · split at h
    · obtain ⟨file, -, rfl⟩ := Option.map_eq_some_iff.mp h
      exact List.nodup_singleton _
    · obtain ⟨paths, hpaths, h⟩ := Option.bind_eq_some_iff.mp h
      obtain ⟨entries, hentries, rfl⟩ := Option.map_eq_some_iff.mp hpaths
      rw [names_mapM_load h]
      exact (tree.walk_nodup hentries).sublist (List.filter_sublist.map _)
  · cases h

theorem loadMoveFiles_singleton (path : Text) : tree.loadMoveFiles [path] = tree.loadPath path := by
  rw [loadMoveFiles, List.mapM_cons]
  cases tree.loadPath path with
  | none => rfl
  | some files => exact congrArg some (List.append_nil files)

end FileTree

/-- The path lies in one of the folders of modules. -/
def InModuleFolder (config : Config) (fpath : Text) : Prop :=
  ∃ folder ∈ config.modulesFolders, contains folder fpath

namespace Analysis

variable (analysis : Analysis) (now : Moment) (currentFile : MoveFile)

def stdlibNames : List Text := (analysis.readStdlibFiles now).map MoveFile.name

/-- Every dependency is given once: the files of the standard library and the tracked files of the
folders of modules, without the file that is checked. -/
structure SeesEachOnce : Prop where
  once : ((analysis.deps now currentFile).map MoveFile.name).Nodup
  others : ∀ file ∈ analysis.deps now currentFile, file.name ≠ currentFile.name
  sound : ∀ file ∈ analysis.deps now currentFile, file ∈ analysis.readStdlibFiles now ∨
    analysis.db.availableFiles.lookup file.name = some file.content ∧
      InModuleFolder analysis.db.config file.name
  complete : ∀ name, name ≠ currentFile.name →
    (name ∈ analysis.stdlibNames now ∨
      name ∈ analysis.db.availableFiles ∧ InModuleFolder analysis.db.config name) →
    name ∈ (analysis.deps now currentFile).map MoveFile.name

/-- Of the tracked files, those that are taken for files of modules are the ones in the folders
of modules that are not in the standard library. -/
def FoldersApart : Prop :=
  ∀ name ∈ analysis.db.availableFiles, name ≠ currentFile.name →
    (analysis.db.isFpathForAModule name ↔
      InModuleFolder analysis.db.config name ∧ name ∉ analysis.stdlibNames now)

variable {analysis now currentFile}

theorem mem_moduleFiles {db : RootDatabase} {name : Text} :
    name ∈ db.moduleFiles ↔ name ∈ db.availableFiles ∧ db.isFpathForAModule name := by
  rw [RootDatabase.moduleFiles, Finset.mem_filter, Finmap.mem_keys]

theorem names_trackedModules (h : now.Orders analysis.db) :
    (analysis.trackedModules now).map MoveFile.name = now.modules := by
  have hlookup : ∀ name ∈ now.modules, ∃ text, analysis.db.availableFiles.lookup name = some text := by
    intro name hname
    rw [← List.mem_toFinset, h.2, mem_moduleFiles] at hname
    exact Finmap.mem_iff.mp hname.1
  rw [trackedModules]
  generalize now.modules = modules at hlookup
  induction modules with
  | nil => rfl
  | cons name modules ih =>
    obtain ⟨⟨text, htext⟩, hrest⟩ := List.forall_mem_cons.mp hlookup
    rw [List.filterMap_cons, htext]
    exact congrArg (name :: ·) (ih hrest)

theorem mem_modules (h : now.Orders analysis.db) {name : Text} :
    name ∈ now.modules ↔ name ∈ analysis.db.availableFiles ∧ analysis.db.isFpathForAModule name := by
  rw [← List.mem_toFinset, h.2, mem_moduleFiles]

theorem mem_depsNames (h : now.Orders analysis.db) {name : Text} :
    name ∈ (analysis.deps now currentFile).map MoveFile.name ↔
      (name ∈ analysis.stdlibNames now ∨ name ∈ now.modules) ∧ name ≠ currentFile.name := by
  rw [← names_trackedModules h, stdlibNames, ← List.mem_append, ← List.map_append, deps]
  simp only [List.mem_map, List.mem_filter, decide_eq_true_eq]
  constructor
  · rintro ⟨file, ⟨hfile, hother⟩, rfl⟩
    exact ⟨⟨file, hfile, rfl⟩, hother⟩
  · rintro ⟨⟨file, hfile, rfl⟩, hother⟩
    exact ⟨file, ⟨hfile, hother⟩, rfl⟩

theorem depsNames_eq (h : now.Orders analysis.db) :
    (analysis.deps now currentFile).map MoveFile.name =
      (analysis.stdlibNames now ++ now.modules).filter (· ≠ currentFile.name) := by
  rw [← names_trackedModules h, stdlibNames, ← List.map_append, List.filter_map]
  rfl

theorem stdlibNames_nodup {tree : FileTree} (hdisk : now.disk = tree.disk) :
    (analysis.stdlibNames now).Nodup := by
  rw [stdlibNames, readStdlibFiles]
  split
  · rename_i folder _
    rw [hdisk]
    show (((tree.loadMoveFiles [folder]).getD []).map MoveFile.name).Nodup
    rw [FileTree.loadMoveFiles_singleton]
    cases hfiles : tree.loadPath folder with
    | none => exact List.nodup_nil
    | some files => exact FileTree.loadPath_nodup hfiles
  · exact List.nodup_nil

theorem FoldersApart.seesEachOnce {tree : FileTree} (hdisk : now.disk = tree.disk)
    (h : now.Orders analysis.db) (hapart : analysis.FoldersApart now currentFile) :
    analysis.SeesEachOnce now currentFile where
  once := by
    rw [depsNames_eq h, List.filter_append]
    refine List.nodup_append.mpr ⟨(stdlibNames_nodup hdisk).filter _, h.1.filter _, ?_⟩
    rintro name hstdlib _ hname rfl
    obtain ⟨hstdlib, hother⟩ := List.mem_filter.mp hstdlib
    obtain ⟨hname, -⟩ := List.mem_filter.mp hname
    obtain ⟨htracked, hprefix⟩ := (mem_modules h).mp hname
    exact ((hapart name htracked (by simpa using hother)).mp hprefix).2 hstdlib
  others file hfile := by simpa using (List.mem_filter.mp hfile).2
  sound file hfile := by
    obtain ⟨hmem, hother⟩ := List.mem_filter.mp hfile
    rcases List.mem_append.mp hmem with hstdlib | htracked
    · exact .inl hstdlib
    · obtain ⟨name, hname, hlookup⟩ := List.mem_filterMap.mp htracked
      obtain ⟨text, htext, rfl⟩ := Option.map_eq_some_iff.mp hlookup
      obtain ⟨hkey, hprefix⟩ := (mem_modules h).mp hname
      exact .inr ⟨htext, ((hapart name hkey (by simpa using hother)).mp hprefix).1⟩
  complete name hother hname := by
    refine (mem_depsNames h).mpr ⟨?_, hother⟩
    by_cases hstdlib : name ∈ analysis.stdlibNames now
    · exact .inl hstdlib
    · obtain ⟨hkey, hinside⟩ := hname.resolve_left hstdlib
      exact .inr ((mem_modules h).mpr ⟨hkey, (hapart name hkey hother).mpr ⟨hinside, hstdlib⟩⟩)

theorem SeesEachOnce.foldersApart (h : now.Orders analysis.db)
    (hsees : analysis.SeesEachOnce now currentFile) : analysis.FoldersApart now currentFile := by
  intro name hkey hother
  constructor
  · intro hprefix
    have hname := (mem_modules h).mpr ⟨hkey, hprefix⟩
    have honce := hsees.once
    rw [depsNames_eq h, List.filter_append] at honce
    have hstdlib : name ∉ analysis.stdlibNames now := by
      intro hstdlib
      apply (List.nodup_append.mp honce).2.2 name _ name _ rfl
      · exact List.mem_filter.mpr ⟨hstdlib, by simpa using hother⟩
      · exact List.mem_filter.mpr ⟨hname, by simpa using hother⟩
    obtain ⟨file, hfile, rfl⟩ := List.mem_map.mp ((mem_depsNames h).mpr ⟨.inr hname, hother⟩)
    rcases hsees.sound file hfile with hmem | ⟨-, hinside⟩
    · exact absurd (List.mem_map_of_mem hmem) hstdlib
    · exact ⟨hinside, hstdlib⟩
  · rintro ⟨hinside, hstdlib⟩
    have hname := hsees.complete name hother (.inr ⟨hkey, hinside⟩)
    have hmodule := ((mem_depsNames h).mp hname).1.resolve_left hstdlib
    exact ((mem_modules h).mp hmodule).2

/-- Module files are found by the text of their path, and taken also where the standard library has
them already. -/
theorem dependencies_once_iff (analysis : Analysis) (tree : FileTree) (modules : List Text)
    (currentFile : MoveFile) (h : Moment.Orders ⟨tree.disk, modules⟩ analysis.db) :
    analysis.SeesEachOnce ⟨tree.disk, modules⟩ currentFile ↔
      analysis.FoldersApart ⟨tree.disk, modules⟩ currentFile :=
  ⟨fun hsees => hsees.foldersApart h, fun hapart => hapart.seesEachOnce rfl h⟩

/-- `/a/modules` is configured, and one more file is open. -/
def siblingAnalysis (fpath : Text) : Analysis where
  db :=
    { config := ⟨.libra, none, ["/a/modules".toList], .default⟩
      availableFiles := Finmap.singleton fpath "module M {}".toList }

def emptyTree : FileTree where
  pathExists _ := true
  isFile _ := false
  walk _ := some []
  read _ := none
  walk_nodup h := by
    cases h
    exact List.nodup_nil

theorem dependencies_once_inside :
    (siblingAnalysis "/a/modules/x.move".toList).SeesEachOnce
      ⟨emptyTree.disk, ["/a/modules/x.move".toList]⟩ ⟨"/a/main.move".toList, []⟩ := by
  refine (dependencies_once_iff _ emptyTree _ _ (by decide)).mpr fun name hname _ => ?_
  obtain rfl := Finmap.mem_singleton _ _ _ |>.mp hname
  exact iff_of_true (by decide) ⟨⟨_, List.mem_singleton_self _, by decide⟩, List.not_mem_nil⟩

theorem sibling_taken :
    ¬(siblingAnalysis "/a/modules2/x.move".toList).SeesEachOnce
      ⟨emptyTree.disk, ["/a/modules2/x.move".toList]⟩ ⟨"/a/main.move".toList, []⟩ := by
  intro h
  have hmem : (⟨"/a/modules2/x.move".toList, "module M {}".toList⟩ : MoveFile) ∈
      (siblingAnalysis "/a/modules2/x.move".toList).deps
        ⟨emptyTree.disk, ["/a/modules2/x.move".toList]⟩ ⟨"/a/main.move".toList, []⟩ := by decide
  rcases h.sound _ hmem with hstdlib | ⟨-, folder, hfolder, hinside⟩
  · cases hstdlib
  · obtain rfl := List.mem_singleton.mp hfolder
    exact absurd hinside (by decide)

end Analysis
end MoveTools.LanguageServer
