import MoveTools.Library.Text
import MoveTools.Index.Meta

namespace MoveTools.Index

structure FileMeta where
  path : Text
  metas : List DefinitionMeta
  deriving DecidableEq

namespace Store

inductive SourceType where
  | Local
  | Git
  | Chain
  deriving DecidableEq, Repr

structure Module where
  name : ModuleId
  depName : Text
  path : Text
  sourceType : SourceType
  dependencies : List ModuleId
  deriving DecidableEq

/-- The two nested maps, as the list of modules that is stored. -/
abbrev ModulesIndex := List Module

namespace ModulesIndex

def entry (index : ModulesIndex) (name : ModuleId) (t : SourceType) : Option Module :=
  index.find? fun m => m.name = name ∧ m.sourceType = t

/-- `modules.entry(name).or_insert_with(HashMap::default).insert(source_type, module)` -/
def insert (index : ModulesIndex) (m : Module) : ModulesIndex :=
  m :: index.filter fun x => ¬(x.name = m.name ∧ x.sourceType = m.sourceType)

/-- Local modules come before those from git, and these before those from the chain. -/
def getModule (index : ModulesIndex) (name : ModuleId) : Option Module :=
  (index.entry name .Local).or ((index.entry name .Git).or (index.entry name .Chain))

def storeUnit (srcType : SourceType) (depName path : Text) (index : ModulesIndex)
    (unit : DefinitionMeta) : ModulesIndex :=
  index.insert ⟨unit.moduleId, depName, path, srcType, unit.imports⟩

def storeFile (srcType : SourceType) (depName : Text) (index : ModulesIndex) (file : FileMeta) :
    ModulesIndex :=
  file.metas.foldl (storeUnit srcType depName file.path) index

def storeMeta (index : ModulesIndex) (fMeta : List FileMeta) (srcType : SourceType)
    (depName : Text) : ModulesIndex :=
  fMeta.foldl (storeFile srcType depName) index

variable {index : ModulesIndex} {m : Module} {name : ModuleId} {t : SourceType}

theorem entry_eq_some (h : index.entry name t = some m) :
    m ∈ index ∧ m.name = name ∧ m.sourceType = t := by
  have := List.find?_some h
  exact ⟨List.mem_of_find?_eq_some h, by simpa using this⟩

theorem entry_insert_self (index : ModulesIndex) (m : Module) :
    (index.insert m).entry m.name m.sourceType = some m := by
  simp [entry, insert]

theorem entry_insert_of_ne (h : ¬(m.name = name ∧ m.sourceType = t)) :
    (index.insert m).entry name t = index.entry name t := by
  unfold entry insert
  rw [List.find?_cons_of_neg (by simpa using h), List.find?_filter]
  congr 1
  funext x
  apply decide_eq_decide.mpr
  rw [decide_eq_true_eq, decide_eq_true_eq]
  constructor
  · exact And.right
  · intro hx
    exact ⟨fun hm => h ⟨hm.1.symm.trans hx.1, hm.2.symm.trans hx.2⟩, hx⟩

theorem getModule_insert_of_ne (h : name ≠ m.name) :
    (index.insert m).getModule name = index.getModule name := by
  have hne : ∀ t, ¬(m.name = name ∧ m.sourceType = t) := fun _ hm => h hm.1.symm
  simp only [getModule, entry_insert_of_ne (hne _)]

/-- An entry from the chain is found if there is none of another type. -/
theorem getModule_insert_chain (hm : m.sourceType = .Chain)
    (h : index.getModule m.name = none ∨ index.getModule m.name = some m) :
    (index.insert m).getModule m.name = some m := by
  have hnone : index.entry m.name .Local = none ∧ index.entry m.name .Git = none := by
    rcases h with h | h
    · simp only [getModule, Option.or_eq_none_iff] at h
      exact ⟨h.1, h.2.1⟩
    · simp only [getModule, Option.or_eq_some_iff] at h
      rcases h with h | ⟨hlocal, h | ⟨hgit, _⟩⟩
      · cases hm.symm.trans (entry_eq_some h).2.2
      · cases hm.symm.trans (entry_eq_some h).2.2
      · exact ⟨hlocal, hgit⟩
  have hother : ∀ t, t ≠ .Chain → (index.insert m).entry m.name t = index.entry m.name t := by
    intro t ht
    exact entry_insert_of_ne fun hx => ht (hx.2.symm.trans hm)
  have hchain : (index.insert m).entry m.name .Chain = some m := by
    rw [← hm]
    exact entry_insert_self index m
  simp [getModule, hother, hchain, hnone]

end ModulesIndex
end Store
end MoveTools.Index
