import MoveTools.Compiler.Parser

namespace MoveTools.Compiler
open Compiler.Parser

inductive Step (α ν : Type*) where
  | stop (a : α)
  | next (n : ν)

variable (lang : MoveLang)

abbrev CheckerResult := Except Errors lang.CheckedProgram

abbrev TranslationResult := Except Errors (List lang.CompiledUnit)

/-- The `CompileFlow` trait, with its default methods. `σ` is the state of the implementor. -/
structure CompileFlow (α σ : Type) where
  init : σ → Dialect → Option ProvidedAccountAddress → σ := fun s _ _ => s
  afterParsing : σ → ParserArtifact lang → Option (Step α (ParserArtifact lang) × σ) :=
    fun s artifact => some (.next artifact, s)
  afterCheck : σ → ParsingMeta lang → CheckerResult lang →
      Option (Step α (ParsingMeta lang × CheckerResult lang) × σ) :=
    fun s pmeta result => some (.next (pmeta, result), s)
  afterTranslate : σ → ParsingMeta lang → TranslationResult lang → Option α

/-- `sender.map(|addr| addr.as_address())`, where a wrong literal panics. -/
def asAddress : Option ProvidedAccountAddress → Option (Option lang.Address)
  | none => some none
  | some sender => (lang.fromHexLiteral sender.lowered).map some

variable {lang}

def compile {α σ : Type} (flow : CompileFlow lang α σ) (s : σ) (fuel : ℕ) (dialect : Dialect)
    (targets deps : List MoveFile) (sender : Option ProvidedAccountAddress) : Option α := do
  let s := flow.init s dialect sender
  let artifact ← parseProgram lang fuel dialect sender targets deps
  match ← flow.afterParsing s artifact with
  | (.stop artifact, _) => pure artifact
  | (.next artifact, s) =>
    let address ← asAddress lang sender
    match ← flow.afterCheck s artifact.parsingMeta
        (lang.checkProgram artifact.result address) with
    | (.stop artifact, _) => pure artifact
    | (.next (pmeta, checkResult), s) =>
      flow.afterTranslate s pmeta (checkResult.bind lang.translateProgram)

def translation (artifact : ParserArtifact lang) (sender : Option ProvidedAccountAddress) :
    Option (TranslationResult lang) :=
  (asAddress lang sender).map fun address =>
    (lang.checkProgram artifact.result address).bind lang.translateProgram

/-- Where a flow does not stop before it, `after_translate` gets the compiler's result. -/
theorem compile_eq_afterTranslate {α σ : Type} (flow : CompileFlow lang α σ) (s : σ) {fuel : ℕ}
    {dialect : Dialect} {targets deps : List MoveFile} {sender : Option ProvidedAccountAddress}
    {artifact : ParserArtifact lang} {result : TranslationResult lang}
    (hparse : parseProgram lang fuel dialect sender targets deps = some artifact)
    (hresult : translation artifact sender = some result)
    (hparsing : ∀ s, ∃ s', flow.afterParsing s artifact = some (.next artifact, s'))
    (hcheck : ∀ s r, ∃ s', flow.afterCheck s artifact.parsingMeta r =
      some (.next (artifact.parsingMeta, r), s')) :
    ∃ s', compile flow s fuel dialect targets deps sender =
      flow.afterTranslate s' artifact.parsingMeta result := by
  obtain ⟨address, haddress, rfl⟩ := Option.map_eq_some_iff.mp hresult
  obtain ⟨s1, h1⟩ := hparsing (flow.init s dialect sender)
  obtain ⟨s2, h2⟩ := hcheck s1 (lang.checkProgram artifact.result address)
  exact ⟨s2, by simp [compile, hparse, h1, haddress, h2]⟩

variable (lang) in
structure Artifacts where
  files : FileMap Text
  prog : TranslationResult lang

def moveBuilder : CompileFlow lang (Artifacts lang) Unit where
  afterTranslate _ pmeta
    | .ok units => some ⟨pmeta.sourceMap, .ok units⟩
    | .error errors =>
      (pmeta.offsetsMap.transform errors).map fun errors => ⟨pmeta.sourceMap, .error errors⟩

variable (lang) in
def MoveBuilder.build (fuel : ℕ) (dialect : Dialect) (sender : Option ProvidedAccountAddress)
    (targets deps : List MoveFile) : Option (Artifacts lang) :=
  compile moveBuilder () fuel dialect targets deps sender

structure CompilerError where
  sourceMap : FileMap Text
  errors : Errors

/-- `Meta` of a script, and `make_script_meta` where a definition is a script. -/
structure ScriptMetas (lang : MoveLang) where
  Meta : Type
  ofDefinition : lang.Definition → Option Meta

def scriptMetadata (metas : ScriptMetas lang) :
    CompileFlow lang (Except CompilerError (List metas.Meta)) Unit where
  afterParsing s artifact :=
    match artifact.result with
    | .error errors => (artifact.parsingMeta.offsetsMap.transform errors).map fun errors =>
      (.stop (.error ⟨artifact.parsingMeta.sourceMap, errors⟩), s)
    | .ok prog => some (.stop (.ok (prog.1.filterMap metas.ofDefinition)), s)
  afterTranslate _ _ _ := some (.ok [])

def ScriptMetadata.extract (metas : ScriptMetas lang) (fuel : ℕ) (dialect : Dialect)
    (script : MoveFile) : Option (Except CompilerError (List metas.Meta)) :=
  compile (scriptMetadata metas) () fuel dialect [script] [] none

end MoveTools.Compiler
