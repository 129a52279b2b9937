import MoveTools.Compiler.Parser
import MoveTools.Index.Store

namespace MoveTools.Index
open Syntax Collect Compiler Compiler.Parser

/-- What the index needs besides the parser: the contents of the parsed definitions, the rules for
identifiers, `AccountAddress::LENGTH` and the random numbers drawn for the scripts of a file. -/
structure Reader (lang : MoveLang) where
  read : lang.Definition → Definition
  ids : Identifiers
  addressLength : ℕ
  random : ℕ → ℕ

section
variable {lang : MoveLang} (reader : Reader lang) (fuel : ℕ) (dialect : Dialect)

def definitionMeta (address : Option Address) (x : lang.Definition × ℕ) :
    Except String (List DefinitionMeta) :=
  DefinitionMeta.fromDefinition reader.ids reader.addressLength (reader.random x.2) address
    (reader.read x.1)

def definitionsMeta (address : Option Address) (defs : List lang.Definition) :
    Except String (List DefinitionMeta) :=
  (defs.zipIdx.mapM (definitionMeta reader address)).map List.flatten

/-- `source_meta` on a file that could be read. -/
def sourceMeta (file : MoveFile) (address : Option Address) :
    Option (Except String FileMeta) := do
  let (_, parsed) ← parseFile lang fuel dialect none (fun _ => none) file.name file.content
  if parsed.errors = [] then
    return match definitionsMeta reader address parsed.defs with
      | .ok metas => .ok ⟨file.name, metas⟩
      | .error err => .error (err ++ " Path:\"" ++ String.ofList file.name ++ "\"")
  else return .error ("Failed to parse move file:" ++ String.ofList file.name)

end

/-- The text `text` is parsed to `defs`, everything else is refused. -/
def oneText (text : Text) (defs : List Definition) : MoveLang where
  Definition := Definition
  FileCommentMap := Unit
  CheckedProgram := Unit
  CompiledUnit := Unit
  Address := Unit
  noComments := ()
  stripCommentsAndVerify _ t := .ok (t, ())
  parseFileString path t :=
    if t = text then .ok defs else .error [[(⟨path, ⟨0, 0⟩⟩, "Unexpected token".toList)]]
  checkProgram _ _ := .ok ()
  translateProgram _ := .ok []
  fromHexLiteral _ := some ()

def oneTextReader (text : Text) (defs : List Definition) : Reader (oneText text defs) where
  read := id
  ids := ⟨fun _ => true⟩
  addressLength := 20
  random _ := 0

def plainDialect : Dialect where
  normalizeAccountAddress _ := none
  replaceAddresses text map := some (text, map)

end MoveTools.Index
