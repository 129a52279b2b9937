import MoveTools.Compiler.Builder

namespace MoveTools.Executor
open Compiler Compiler.Parser

/-- What a session builder does with programs that compile. -/
structure SessionParts (lang : MoveLang) where
  ConstsMap : Type
  LocMap : Type
  ExecutionSession : Type
  noConsts : ConstsMap
  extractErrorConstants : List lang.Definition × List lang.Definition → ConstsMap → ConstsMap
  scriptLocMap : lang.CheckedProgram → LocMap
  session : ProvidedAccountAddress → ConstsMap → Option LocMap → ParsingMeta lang →
    List lang.CompiledUnit → Option ExecutionSession

variable {lang : MoveLang} (parts : SessionParts lang)

structure SessionBuilder where
  sender : ProvidedAccountAddress
  locMap : Option parts.LocMap
  consts : parts.ConstsMap

def SessionBuilder.new (sender : ProvidedAccountAddress) : SessionBuilder parts :=
  ⟨sender, none, parts.noConsts⟩

def sessionBuilder :
    CompileFlow lang (Except CompilerError parts.ExecutionSession) (SessionBuilder parts) where
  afterParsing s artifact :=
    match artifact.result with
    | .ok program =>
      some (.next artifact, { s with consts := parts.extractErrorConstants program s.consts })
    | .error _ => some (.next artifact, s)
  afterCheck s pmeta checkResult :=
    match checkResult with
    | .ok prog =>
      some (.next (pmeta, checkResult), { s with locMap := some (parts.scriptLocMap prog) })
    | .error _ => some (.next (pmeta, checkResult), s)
  afterTranslate s pmeta
    | .ok units => (parts.session s.sender s.consts s.locMap pmeta units).map .ok
    | .error errors =>
      (pmeta.offsetsMap.transform errors).map fun errors => .error ⟨pmeta.sourceMap, errors⟩

def SessionBuilder.build (fuel : ℕ) (dialect : Dialect) (sender : ProvidedAccountAddress)
    (sources deps : List MoveFile) : Option (Except CompilerError parts.ExecutionSession) :=
  compile (sessionBuilder parts) (.new parts sender) fuel dialect sources deps (some sender)

end MoveTools.Executor
