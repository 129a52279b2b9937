import MoveTools.Library.Loop
import MoveTools.Compiler.LineEndings

namespace MoveTools.Compiler
open Loop

structure ProvidedAccountAddress where
  original : Text
  normalizedOriginal : Text
  lowered : Text
  deriving DecidableEq

namespace ProvidedAccountAddress

protected def default : ProvidedAccountAddress where
  original := "0x0".toList
  normalizedOriginal := "0x00000000000000000000000000000000".toList
  lowered := "0x0000000000000000000000000000000000000000".toList

end ProvidedAccountAddress

/-- The part of a dialect that works on source text. `none` stands for an error of the former,
and for a panic of the latter or a loop that does not end. -/
structure Dialect where
  normalizeAccountAddress : Text → Option ProvidedAccountAddress
  replaceAddresses : Text → FileOffsetMap → Option (Text × FileOffsetMap)

structure MoveFile where
  name : Text
  content : Text
  deriving DecidableEq

/-- What is called of the `move_lang` crate, with its syntax trees, and of `move_core_types`. -/
structure MoveLang where
  Definition : Type
  FileCommentMap : Type
  CheckedProgram : Type
  CompiledUnit : Type
  Address : Type
  noComments : FileCommentMap
  stripCommentsAndVerify : Text → Text → Except Errors (Text × FileCommentMap)
  parseFileString : Text → Text → Except Errors (List Definition)
  checkProgram : Except Errors (List Definition × List Definition) → Option Address →
    Except Errors CheckedProgram
  translateProgram : CheckedProgram → Except Errors (List CompiledUnit)
  fromHexLiteral : Text → Option Address

namespace Parser

def templates : List Text := ["{{sender}}".toList, "{{ sender }}".toList]

/-- `while let Some(pos) = new_s.find(template)`, with the body. -/
def nextPlaceholder (template sender : Text) (x : Text × FileOffsetMap) :
    Option (Option (Text × FileOffsetMap)) :=
  some ((Text.find template x.1).map fun (before, after) =>
    (before ++ sender ++ after,
      x.2.insertLayer (Text.len before + Text.len sender) (lenDifference template sender)))

def replaceSenderPlaceholder (fuel : ℕ) (s sender : Text) (map : FileOffsetMap) :
    Option (Text × FileOffsetMap) :=
  if 12 < Text.len sender then
    templates.foldlM (fun x template => whileLet (nextPlaceholder template sender) fuel x) (s, map)
  else none

def normalizeSourceText (fuel : ℕ) (dialect : Dialect) (sourceText : Text)
    (sender : Option ProvidedAccountAddress) : Option (Text × FileOffsetMap) := do
  let x := LineEndings.normalize sourceText
  let x ← match sender with
    | some sender => replaceSenderPlaceholder fuel x.1 sender.normalizedOriginal x.2
    | none => some x
  dialect.replaceAddresses x.1 x.2

variable (lang : MoveLang)

structure ParsingMeta where
  sourceMap : FileMap Text
  offsetsMap : ProjectOffsetMap
  comments : FileMap lang.FileCommentMap

structure ParserArtifact where
  parsingMeta : ParsingMeta lang
  result : Except Errors (List lang.Definition × List lang.Definition)

/-- What `parse_file` returns. -/
structure ParsedFile where
  defs : List lang.Definition
  comments : lang.FileCommentMap
  errors : Errors
  offsetsMap : FileOffsetMap

variable (fuel : ℕ) (dialect : Dialect) (sender : Option ProvidedAccountAddress)

def parseFile (files : FileMap Text) (fname sourceBuffer : Text) :
    Option (FileMap Text × ParsedFile lang) := do
  let (sourceBuffer, fileSourceMap) ← normalizeSourceText fuel dialect sourceBuffer sender
  match lang.stripCommentsAndVerify fname sourceBuffer with
  | .error errors =>
    pure (files.insert fname sourceBuffer, ⟨[], lang.noComments, errors, fileSourceMap⟩)
  | .ok (noCommentsBuffer, commentMap) =>
    let files := files.insert fname sourceBuffer
    match lang.parseFileString fname noCommentsBuffer with
    | .ok defs => pure (files, ⟨defs, commentMap, [], fileSourceMap⟩)
    | .error errors => pure (files, ⟨[], commentMap, errors, fileSourceMap⟩)

structure ProgramState where
  files : FileMap Text := fun _ => none
  sourceDefinitions : List lang.Definition := []
  commentMap : FileMap lang.FileCommentMap := fun _ => none
  libDefinitions : List lang.Definition := []
  projectOffsetsMap : ProjectOffsetMap := fun _ => none
  errors : Errors := []

def parseTarget (st : ProgramState lang) (target : MoveFile) : Option (ProgramState lang) := do
  let (files, parsed) ← parseFile lang fuel dialect sender st.files target.name target.content
  pure { st with
    files
    sourceDefinitions := st.sourceDefinitions ++ parsed.defs
    commentMap := st.commentMap.insert target.name parsed.comments
    projectOffsetsMap := FileMap.insert st.projectOffsetsMap target.name parsed.offsetsMap
    errors := st.errors ++ parsed.errors }

def parseDep (st : ProgramState lang) (dep : MoveFile) : Option (ProgramState lang) := do
  let (files, parsed) ← parseFile lang fuel dialect sender st.files dep.name dep.content
  pure { st with
    files
    libDefinitions := st.libDefinitions ++ parsed.defs
    projectOffsetsMap := FileMap.insert st.projectOffsetsMap dep.name parsed.offsetsMap
    errors := st.errors ++ parsed.errors }

def parseProgram (targets deps : List MoveFile) : Option (ParserArtifact lang) := do
  let st ← targets.foldlM (parseTarget lang fuel dialect sender) {}
  let st ← deps.foldlM (parseDep lang fuel dialect sender) st
  pure {
    parsingMeta := ⟨st.files, st.projectOffsetsMap, st.commentMap⟩
    result := if st.errors = [] then .ok (st.sourceDefinitions, st.libDefinitions)
      else .error st.errors }

/-- The text of each file as the compiler sees it, with the layers that lead back to the source.
Of several files with one name the last one counts. -/
def normalizedFiles (files : List MoveFile) : FileMap (Text × FileOffsetMap) :=
  files.foldl (fun m file => Function.update m file.name
    (normalizeSourceText fuel dialect file.content sender)) fun _ => none

variable {lang fuel dialect sender}

/-- The two maps of a state hold the texts and layers of `m`. -/
def ProgramState.Holds (st : ProgramState lang) (m : FileMap (Text × FileOffsetMap)) : Prop :=
  ∀ name, st.files name = (m name).map Prod.fst ∧ st.projectOffsetsMap name = (m name).map Prod.snd

theorem parseFile_eq {files files' : FileMap Text} {fname source : Text} {parsed : ParsedFile lang}
    (h : parseFile lang fuel dialect sender files fname source = some (files', parsed)) :
    ∃ text, normalizeSourceText fuel dialect source sender = some (text, parsed.offsetsMap) ∧
      files' = files.insert fname text := by
  unfold parseFile at h
  obtain ⟨⟨text, map⟩, hnorm, h⟩ := Option.bind_eq_some_iff.mp h
  refine ⟨text, ?_⟩
  cases hstrip : lang.stripCommentsAndVerify fname text with
  | error errors =>
    simp only [hstrip, Option.pure_def, Option.some.injEq, Prod.mk.injEq] at h
    obtain ⟨rfl, rfl⟩ := h
    exact ⟨hnorm, rfl⟩
  | ok x =>
    cases hparse : lang.parseFileString fname x.1 with
    | error errors =>
      simp only [hstrip, hparse, Option.pure_def, Option.some.injEq, Prod.mk.injEq] at h
      obtain ⟨rfl, rfl⟩ := h
      exact ⟨hnorm, rfl⟩
    | ok defs =>
      simp only [hstrip, hparse, Option.pure_def, Option.some.injEq, Prod.mk.injEq] at h
      obtain ⟨rfl, rfl⟩ := h
      exact ⟨hnorm, rfl⟩

theorem ProgramState.Holds.insert {st st' : ProgramState lang}
    {m : FileMap (Text × FileOffsetMap)} (h : st.Holds m) {file : MoveFile} {text : Text}
    {map : FileOffsetMap}
    (hnorm : normalizeSourceText fuel dialect file.content sender = some (text, map))
    (hfiles : st'.files = st.files.insert file.name text)
    (hmap : st'.projectOffsetsMap = FileMap.insert st.projectOffsetsMap file.name map) :
    st'.Holds (Function.update m file.name
      (normalizeSourceText fuel dialect file.content sender)) := by
  intro name
  rw [hfiles, hmap, hnorm]
  by_cases hname : name = file.name
  · subst hname
    simp [FileMap.insert]
  · simpa [FileMap.insert, hname] using h name

theorem parseTarget_holds {st st' : ProgramState lang} {m : FileMap (Text × FileOffsetMap)}
    {file : MoveFile} (h : st.Holds m)
    (hst : parseTarget lang fuel dialect sender st file = some st') :
    st'.Holds (Function.update m file.name
      (normalizeSourceText fuel dialect file.content sender)) := by
  obtain ⟨⟨files, parsed⟩, hparse, heq⟩ := Option.bind_eq_some_iff.mp hst
  cases heq
  obtain ⟨text, hnorm, rfl⟩ := parseFile_eq hparse
  exact h.insert hnorm rfl rfl

theorem parseDep_holds {st st' : ProgramState lang} {m : FileMap (Text × FileOffsetMap)}
    {file : MoveFile} (h : st.Holds m)
    (hst : parseDep lang fuel dialect sender st file = some st') :
    st'.Holds (Function.update m file.name
      (normalizeSourceText fuel dialect file.content sender)) := by
  obtain ⟨⟨files, parsed⟩, hparse, heq⟩ := Option.bind_eq_some_iff.mp hst
  cases heq
  obtain ⟨text, hnorm, rfl⟩ := parseFile_eq hparse
  exact h.insert hnorm rfl rfl

variable (fuel dialect sender) in
theorem foldlM_holds {step : ProgramState lang → MoveFile → Option (ProgramState lang)}
    (hstep : ∀ {st st' m file}, st.Holds m → step st file = some st' →
      st'.Holds (Function.update m file.name
        (normalizeSourceText fuel dialect file.content sender)))
    {files : List MoveFile} {st st' : ProgramState lang} {m : FileMap (Text × FileOffsetMap)}
    (h : st.Holds m) (hst : files.foldlM step st = some st') :
    st'.Holds (files.foldl (fun m file => Function.update m file.name
      (normalizeSourceText fuel dialect file.content sender)) m) := by
  induction files generalizing st m with
  | nil =>
    cases hst
    exact h
  | cons file files ih =>
    rw [List.foldlM_cons] at hst
    obtain ⟨st1, hfile, hrest⟩ := Option.bind_eq_some_iff.mp hst
    exact ih (hstep h hfile) hrest

/-- The text stored for error messages is the rewritten one, not the source. -/
theorem parseProgram_holds {targets deps : List MoveFile} {artifact : ParserArtifact lang}
    (h : parseProgram lang fuel dialect sender targets deps = some artifact) (name : Text) :
    artifact.parsingMeta.sourceMap name =
        (normalizedFiles fuel dialect sender (targets ++ deps) name).map Prod.fst ∧
      artifact.parsingMeta.offsetsMap name =
        (normalizedFiles fuel dialect sender (targets ++ deps) name).map Prod.snd := by
  obtain ⟨st, htargets, h⟩ := Option.bind_eq_some_iff.mp h
  obtain ⟨st', hdeps, h⟩ := Option.bind_eq_some_iff.mp h
  cases h
  have hstart : ({} : ProgramState lang).Holds fun _ => none := fun _ => ⟨rfl, rfl⟩
  have := foldlM_holds fuel dialect sender parseDep_holds
    (foldlM_holds fuel dialect sender parseTarget_holds hstart htargets) hdeps
  rw [← List.foldl_append] at this
  exact this name

end Parser
end MoveTools.Compiler
