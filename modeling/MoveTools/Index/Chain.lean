import MoveTools.Disassembler.Module
import MoveTools.Index.Sources

namespace MoveTools.Index.Chain
open Syntax Collect Compiler Compiler.Parser Disassembler

/-- `code_string` of the light disassembly, as `load_tree` writes it. -/
def codeString (m : CompiledModule) : Text := (Module.new m).encode

section
variable {lang : MoveLang} (reader : Reader lang) (fuel : ℕ) (dialect : Dialect)

/-- `ChainIndex::meta` -/
def chainMeta (file : MoveFile) : Option (Except String (List FileMeta)) :=
  (sourceMeta reader fuel dialect file none).map (·.map ([·]))

/-- What is downloaded for a module is found again: one definition, under the id of the module,
which imports the other modules that this one has handles of. -/
def ReadsBack (path : Text) (m : CompiledModule) : Prop :=
  ∃ file definition, chainMeta reader fuel dialect ⟨path, codeString m⟩ = some (.ok [file]) ∧
    file.metas = [definition] ∧ definition.moduleId = ⟨m.selfId.address, m.selfId.name⟩ ∧
    ∀ k : ModuleId, k ∈ definition.imports ↔ ⟨k.address, k.name⟩ ∈ m.moduleHandles ∧
      (⟨k.address, k.name⟩ : ModuleHandle) ≠ m.selfId

/-- Move's parser reads the written module as it is meant. -/
def ParsedFaithfully (path : Text) (m : Module) : Prop :=
  ∀ text map, normalizeSourceText fuel dialect m.encode none = some (text, map) →
    ∃ stripped comments defs, lang.stripCommentsAndVerify path text = .ok (stripped, comments) ∧
      lang.parseFileString path stripped = .ok defs ∧ defs.map reader.read = [m.definition]

variable {reader fuel dialect}

theorem definitionsMeta_none {d : lang.Definition} {m : ModuleDefinition}
    (hd : reader.read d = .Module m) :
    definitionsMeta reader none [d] = .error ("Address not defined for module " ++ m.name) := by
  simp [definitionsMeta, definitionMeta, DefinitionMeta.fromDefinition, hd, bind, Except.bind,
    Except.map]

theorem chainMeta_ne_ok {path : Text} {m : CompiledModule}
    (h : ParsedFaithfully reader fuel dialect path (.new m)) (files : List FileMeta) :
    chainMeta reader fuel dialect ⟨path, codeString m⟩ ≠ some (.ok files) := by
  intro hmeta
  obtain ⟨r, hr, hmap⟩ := Option.map_eq_some_iff.mp hmeta
  obtain ⟨file, rfl, _⟩ := map_eq_ok.mp hmap
  obtain ⟨⟨_, parsed⟩, hparse, hr⟩ := Option.bind_eq_some_iff.mp hr
  obtain ⟨⟨text, map⟩, hnorm, hparse⟩ := Option.bind_eq_some_iff.mp hparse
  obtain ⟨stripped, comments, defs, hstrip, hdefs, hread⟩ := h text map hnorm
  obtain ⟨d, rfl, hd⟩ := List.map_eq_singleton_iff.mp hread
  simp only [hstrip, hdefs, Option.pure_def, Option.some.injEq, Prod.mk.injEq] at hparse
  obtain ⟨_, rfl⟩ := hparse
  simp [definitionsMeta_none hd] at hr

/-- No interface is ever found again. -/
theorem interface_unreadable {lang : MoveLang} (reader : Reader lang) (fuel : ℕ)
    (dialect : Dialect) (path : Text) (m : CompiledModule)
    (h : ParsedFaithfully reader fuel dialect path (.new m)) :
    ¬ReadsBack reader fuel dialect path m := by
  rintro ⟨file, definition, hmeta, _⟩
  exact chainMeta_ne_ok h [file] hmeta

end

def emptyModule : CompiledModule where
  moduleHandles := [⟨DefinitionMeta.CORE_CODE_ADDRESS 20, "M"⟩]
  selfModuleHandle := 0
  structs := []
  functions := []

abbrev interfaceReader :=
  oneTextReader (codeString emptyModule) [(Module.new emptyModule).definition]

theorem interface_unreadable_empty :
    ¬ReadsBack interfaceReader 0 plainDialect "chain_1".toList emptyModule := by
  apply interface_unreadable
  intro text map hnorm
  have htext : text = codeString emptyModule := by
    cases hnorm
    decide
  refine ⟨text, (), [(Module.new emptyModule).definition], rfl, ?_, rfl⟩
  exact if_pos htext

theorem emptyModule_unreadable :
    chainMeta interfaceReader 0 plainDialect ⟨"chain_1".toList, codeString emptyModule⟩ =
        some (.error "Address not defined for module M Path:\"chain_1\"") ∧
      ¬ReadsBack interfaceReader 0 plainDialect "chain_1".toList emptyModule := by
  have h : chainMeta interfaceReader 0 plainDialect
      ⟨"chain_1".toList, codeString emptyModule⟩ =
        some (.error "Address not defined for module M Path:\"chain_1\"") := rfl
  refine ⟨h, ?_⟩
  rintro ⟨file, definition, hmeta, _⟩
  rw [h] at hmeta
  cases hmeta

end MoveTools.Index.Chain
