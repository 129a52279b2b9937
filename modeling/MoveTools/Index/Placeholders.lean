import MoveTools.Index.Imports
import MoveTools.Index.Sources
import MoveTools.Library.Runs

namespace MoveTools.Index.Placeholders
open Syntax Collect Compiler Compiler.Parser Imports

/-! The compiler reads a source with its placeholders replaced by the sender, the index reads it
without a sender. -/

def ownName (random : ℕ) : CodeUnit → String
  | .Module m => m.name
  | .Script s => "scripts_" ++ s.function.name ++ "_" ++ toString random

/-- The name of the unit and of every module that it is seen to name are identifiers. -/
def ValidUnit (ids : Identifiers) (random : ℕ) (unit : CodeUnit) : Prop :=
  ids.isValid (ownName random unit) = true ∧ ∀ m ∈ ofUnit false unit, Valid ids m

section
variable {ids : Identifiers}

theorem identifierNew_eq_ok {name t : String} :
    identifierNew ids name = .ok t ↔ ids.isValid name = true ∧ name = t := by
  unfold identifierNew
  split
  · rename_i h
    simp [h]
  · rename_i h
    simp [h]

theorem named_ok_iff (name : String) {usages : Extract Unit} {names : List ModuleId}
    (hc : Collects (Valid ids) usages names) (f : String → List ModuleId → DefinitionMeta) :
    (∃ d, (do
        let name ← identifierNew ids name
        let (_, imports) ← usages.run []
        return f name imports) = Except.ok d) ↔
      ids.isValid name = true ∧ ∀ m ∈ names, Valid ids m := by
  constructor
  · rintro ⟨d, h⟩
    obtain ⟨name, hname, h⟩ := bind_eq_ok.mp h
    obtain ⟨⟨_, imports⟩, hrun, _⟩ := bind_eq_ok.mp h
    exact ⟨(identifierNew_eq_ok.mp hname).1, hc.acceptable hrun⟩
  · rintro ⟨hname, hnames⟩
    obtain ⟨imports, hrun⟩ := hc.succeeds hnames []
    exact ⟨_, bind_eq_ok.mpr ⟨_, identifierNew_eq_ok.mpr ⟨hname, rfl⟩,
      bind_eq_ok.mpr ⟨_, hrun, rfl⟩⟩⟩

theorem module_ok_iff {m : ModuleDefinition} {address : Address} (random : ℕ) :
    (∃ d, DefinitionMeta.module ids m address = .ok d) ↔ ValidUnit ids random (.Module m) := by
  have hc : Collects (Valid ids) (membersUsages ids m.members) _ := membersUsages_collects _
  exact named_ok_iff m.name hc fun name imports => ⟨⟨address, name⟩, imports⟩

theorem script_ok_iff {random : ℕ} {s : Script} {address : Address} :
    (∃ d, DefinitionMeta.script ids random s address = .ok d) ↔
      ValidUnit ids random (.Script s) := by
  have hc : Collects (Valid ids)
      (do usesAll ids s.uses; functionUsages ids s.function : Extract Unit) (ofScript false s) :=
    (usesAll_collects s.uses).seq (functionUsages_collects s.function)
  exact named_ok_iff (ownName random (.Script s)) hc fun name imports => ⟨⟨address, name⟩, imports⟩

theorem exists_map_eq_ok {ε α β : Type} {x : Except ε α} {f : α → β} :
    (∃ b, x.map f = .ok b) ↔ ∃ a, x = .ok a := by
  simp only [map_eq_ok]
  constructor
  · rintro ⟨_, a, ha, _⟩
    exact ⟨a, ha⟩
  · rintro ⟨a, ha⟩
    exact ⟨f a, a, ha, rfl⟩

/-- With an address given, only names can be refused. -/
theorem fromDefinition_ok_iff {length random : ℕ} {address : Address} {d : Definition} :
    (∃ metas, DefinitionMeta.fromDefinition ids length random (some address) d = .ok metas) ↔
      ∀ unit ∈ units d, ValidUnit ids random unit := by
  cases d with
  | Module m =>
    simp only [DefinitionMeta.fromDefinition, exists_map_eq_ok, units, List.mem_singleton,
      forall_eq]
    exact module_ok_iff random
  | Address addr modules =>
    simp only [DefinitionMeta.fromDefinition, exists_mapM_eq_ok, units, List.forall_mem_map]
    exact forall₂_congr fun m _ => module_ok_iff random
  | Script s =>
    simp only [DefinitionMeta.fromDefinition, exists_map_eq_ok, units, List.mem_singleton,
      forall_eq]
    exact script_ok_iff

end

section
variable {lang : MoveLang} (reader : Reader lang)

def ValidNames (defs : List lang.Definition) : Prop :=
  ∀ x ∈ defs.zipIdx, ∀ unit ∈ units (reader.read x.1),
    ValidUnit reader.ids (reader.random x.2) unit

theorem definitionsMeta_ok_iff {address : Address} {defs : List lang.Definition} :
    (∃ metas, definitionsMeta reader (some address) defs = .ok metas) ↔
      ValidNames reader defs := by
  simp only [definitionsMeta, exists_map_eq_ok, exists_mapM_eq_ok]
  exact forall₂_congr fun x _ => fromDefinition_ok_iff

end

/-- The source contains `{{sender}}` or `{{ sender }}`. -/
def HasPlaceholder (source : Text) : Prop :=
  ∃ t ∈ templates, ∃ a b, (LineEndings.normalize source).1 = a ++ t ++ b

/-- The text that the compiler reads is the one that the index reads. -/
def SameText (fuel : ℕ) (dialect : Dialect) (sender : ProvidedAccountAddress) (source : Text) :
    Prop :=
  ∀ text, (normalizeSourceText fuel dialect source (some sender)).map Prod.fst = some text →
    (normalizeSourceText fuel dialect source none).map Prod.fst = some text

theorem find_eq_none_of_forall {pat s : Text} (h : ∀ a b, s ≠ a ++ pat ++ b) :
    Text.find pat s = none := by
  cases hf : Text.find pat s with
  | none => rfl
  | some x => exact absurd (Text.find_eq_some hf) (h x.1 x.2)

theorem whileLet_nextPlaceholder {fuel : ℕ} {t sender : Text} {x y : Text × FileOffsetMap}
    (hfind : Text.find t x.1 = none)
    (h : Loop.whileLet (nextPlaceholder t sender) fuel x = some y) : y = x := by
  cases fuel with
  | zero => cases h
  | succ fuel => simpa [Loop.whileLet, nextPlaceholder, hfind, eq_comm] using h

theorem replaceSenderPlaceholder_eq {fuel : ℕ} {s sender : Text} {map : FileOffsetMap}
    {y : Text × FileOffsetMap} (hs : ∀ t ∈ templates, ∀ a b, s ≠ a ++ t ++ b)
    (h : replaceSenderPlaceholder fuel s sender map = some y) : y = (s, map) := by
  have hfind : ∀ t ∈ templates, Text.find t s = none := fun t ht =>
    find_eq_none_of_forall (hs t ht)
  unfold replaceSenderPlaceholder at h
  split at h
  · apply Runs.foldlM_preserves (I := (· = (s, map))) (fun ht hx heq => ?_) h rfl
    subst heq
    exact whileLet_nextPlaceholder (hfind _ ht) hx
  · cases h

/-- Without placeholders nothing depends on the sender. -/
theorem sameText_of_not_hasPlaceholder {source : Text} (h : ¬HasPlaceholder source) (fuel : ℕ)
    (dialect : Dialect) (sender : ProvidedAccountAddress) :
    SameText fuel dialect sender source := by
  intro text htext
  obtain ⟨⟨_, map⟩, hnorm, rfl⟩ := Option.map_eq_some_iff.mp htext
  obtain ⟨y, hy, hnorm⟩ := Option.bind_eq_some_iff.mp hnorm
  have heq := replaceSenderPlaceholder_eq
    (fun t ht a b hab => h ⟨t, ht, a, b, hab⟩) hy
  subst heq
  exact Option.map_eq_some_iff.mpr ⟨_, hnorm, rfl⟩

section
variable {lang : MoveLang} (reader : Reader lang) {fuel : ℕ} {dialect : Dialect}
  {sender : ProvidedAccountAddress}

/-- The index accepts the file, with the modules and imports of the definitions `parsed`. -/
def Indexed (fuel : ℕ) (dialect : Dialect) (file : MoveFile) (address : Address)
    (parsed : ParsedFile lang) : Prop :=
  ∃ meta_, sourceMeta reader fuel dialect file (some address) = some (.ok meta_) ∧
    definitionsMeta reader (some address) parsed.defs = .ok meta_.metas

/-- What is parsed of a normalised text. -/
def parsedText (lang : MoveLang) (fname text : Text) (map : FileOffsetMap) : ParsedFile lang :=
  match lang.stripCommentsAndVerify fname text with
  | .error errors => ⟨[], lang.noComments, errors, map⟩
  | .ok (noCommentsBuffer, commentMap) =>
    match lang.parseFileString fname noCommentsBuffer with
    | .ok defs => ⟨defs, commentMap, [], map⟩
    | .error errors => ⟨[], commentMap, errors, map⟩

theorem parseFile_eq_parsedText {sender : Option ProvidedAccountAddress} {fname source text : Text}
    {map : FileOffsetMap} (files : FileMap Text)
    (h : normalizeSourceText fuel dialect source sender = some (text, map)) :
    parseFile lang fuel dialect sender files fname source =
      some (files.insert fname text, parsedText lang fname text map) := by
  unfold parseFile parsedText
  simp only [h, Option.bind_eq_bind, Option.bind_some]
  cases lang.stripCommentsAndVerify fname text with
  | error errors => rfl
  | ok x =>
    cases hparse : lang.parseFileString fname x.1 with
    | error errors => simp [hparse]
    | ok defs => simp [hparse]

theorem parsedText_map (fname text : Text) (map map' : FileOffsetMap) :
    (parsedText lang fname text map').defs = (parsedText lang fname text map).defs ∧
      (parsedText lang fname text map').errors = (parsedText lang fname text map).errors := by
  unfold parsedText
  cases lang.stripCommentsAndVerify fname text with
  | error errors => exact ⟨rfl, rfl⟩
  | ok x =>
    cases hparse : lang.parseFileString fname x.1 with
    | error errors => simp [hparse]
    | ok defs => simp [hparse]

theorem parseFile_none {file : MoveFile} {files files' : FileMap Text} {parsed : ParsedFile lang}
    (hsame : SameText fuel dialect sender file.content)
    (h : parseFile lang fuel dialect (some sender) files file.name file.content =
      some (files', parsed)) :
    ∃ files'' parsed', parseFile lang fuel dialect none (fun _ => none) file.name file.content =
      some (files'', parsed') ∧ parsed'.defs = parsed.defs ∧ parsed'.errors = parsed.errors := by
  obtain ⟨⟨text, map⟩, hnorm, _⟩ := Option.bind_eq_some_iff.mp h
  obtain ⟨⟨_, map'⟩, hnone, rfl⟩ := Option.map_eq_some_iff.mp
    (hsame text (Option.map_eq_some_iff.mpr ⟨_, hnorm, rfl⟩))
  rw [parseFile_eq_parsedText files hnorm] at h
  cases h
  exact ⟨_, _, parseFile_eq_parsedText _ hnone, parsedText_map _ _ _ _⟩

theorem indexed_iff_validNames {file : MoveFile} {files files' : FileMap Text}
    {parsed : ParsedFile lang} (address : Address)
    (hsame : SameText fuel dialect sender file.content)
    (h : parseFile lang fuel dialect (some sender) files file.name file.content =
      some (files', parsed)) (herrors : parsed.errors = []) :
    Indexed reader fuel dialect file address parsed ↔ ValidNames reader parsed.defs := by
  obtain ⟨files'', parsed', hparse, hdefs, herr⟩ := parseFile_none hsame h
  have hvalid : (∃ metas, definitionsMeta reader (some address) parsed.defs = .ok metas) ↔
      ValidNames reader parsed.defs := definitionsMeta_ok_iff reader
  rw [← hvalid]
  constructor
  · rintro ⟨meta_, _, hmetas⟩
    exact ⟨meta_.metas, hmetas⟩
  · rintro ⟨metas, hmetas⟩
    refine ⟨⟨file.name, metas⟩, ?_, hmetas⟩
    simp [sourceMeta, hparse, herr, herrors, hdefs, hmetas]

end

/-- Whatever the parser is: what the compiler parses is indexed, up to names that are no
identifiers, if and only if the sender is not substituted anywhere. -/
theorem indexed_iff_sameText (fuel : ℕ) (dialect : Dialect) (sender : ProvidedAccountAddress)
    (file : MoveFile) :
    (∀ (lang : MoveLang) (reader : Reader lang) (address : Address) (files files' : FileMap Text)
      (parsed : ParsedFile lang),
      parseFile lang fuel dialect (some sender) files file.name file.content =
        some (files', parsed) → parsed.errors = [] →
      (Indexed reader fuel dialect file address parsed ↔ ValidNames reader parsed.defs)) ↔
    SameText fuel dialect sender file.content := by
  constructor
  · intro h text htext
    obtain ⟨⟨t, map⟩, hnorm, ht⟩ := Option.map_eq_some_iff.mp htext
    obtain rfl : t = text := ht
    have hparse : parseFile (oneText t []) fuel dialect (some sender) (fun _ => none) file.name
        file.content = _ := parseFile_eq_parsedText _ hnorm
    have hparsed : parsedText (oneText t []) file.name t map = ⟨[], (), [], map⟩ := by
      simp [parsedText, oneText]
    have hvalid : ValidNames (oneTextReader t [])
        (parsedText (oneText t []) file.name t map).defs := by
      rw [hparsed]
      intro x hx
      simp at hx
    obtain ⟨meta_, hmeta, _⟩ := (h (oneText t []) (oneTextReader t []) [] _ _ _ hparse
      (by rw [hparsed])).mpr hvalid
    obtain ⟨⟨_, parsed⟩, hnone, hmeta⟩ := Option.bind_eq_some_iff.mp hmeta
    obtain ⟨⟨text', map'⟩, hnorm', _⟩ := Option.bind_eq_some_iff.mp hnone
    rw [parseFile_eq_parsedText _ hnorm'] at hnone
    cases hnone
    -- the parser accepts no other text
    by_cases ht : text' = t
    · exact Option.map_eq_some_iff.mpr ⟨_, hnorm', ht⟩
    · simp [parsedText, oneText, ht] at hmeta
  · intro hsame lang reader address files files' parsed hparse herrors
    exact indexed_iff_validNames reader address hsame hparse herrors

def coreSender : ProvidedAccountAddress where
  original := "0x1".toList
  normalizedOriginal := "0x0000000000000000000000000000000000000001".toList
  lowered := "0x0000000000000000000000000000000000000001".toList

def senderModule : MoveFile where
  name := "m.move".toList
  content := "address \x7b\x7bsender\x7d\x7d \x7b module M \x7b\x7d \x7d".toList

abbrev senderModuleReader := oneTextReader
  ("address ".toList ++ coreSender.normalizedOriginal ++ " { module M {} }".toList)
  [.Address coreAddress [⟨"M", []⟩]]

theorem senderModule_not_indexed :
    ∃ files parsed, parseFile _ 2 plainDialect (some coreSender) (fun _ => none) senderModule.name
        senderModule.content = some (files, parsed) ∧ parsed.errors = [] ∧
      ValidNames senderModuleReader parsed.defs ∧
      ¬Indexed senderModuleReader 2 plainDialect senderModule coreAddress parsed := by
  have hindex : sourceMeta senderModuleReader 2 plainDialect senderModule (some coreAddress) =
      some (.error "Failed to parse move file:m.move") := rfl
  refine ⟨_, ⟨[.Address coreAddress [⟨"M", []⟩]], (), [], _⟩, rfl, rfl, ?_, ?_⟩
  · intro x hx unit hunit
    exact ⟨rfl, fun _ _ => rfl⟩
  · rintro ⟨meta_, hmeta, _⟩
    rw [hindex] at hmeta
    cases hmeta

end MoveTools.Index.Placeholders
