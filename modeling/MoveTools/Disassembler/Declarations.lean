import MoveTools.Disassembler.SignatureTexts
import MoveTools.Disassembler.Names
import MoveTools.Disassembler.UseList

namespace MoveTools.Disassembler.Declarations
open Generics (Kind Generic GenericPrefix SignatureToken DeclaredUnit extractTypeParams
  extractTypeSignature extractTypeSignatures)

structure StructHandle (modules : ℕ) where
  module : Fin modules
  name : String
  isNominalResource : Bool
  typeParameters : List Kind

/-- A native struct has no fields. -/
structure StructDefinition (handles : ℕ) where
  structHandle : Fin handles
  fieldInformation : Option (List (String × SignatureToken))

structure FunctionDefinition where
  isPublic : Bool
  isNative : Bool
  name : String
  typeParameters : List Kind
  returns : List SignatureToken
  parameters : List SignatureToken

/-- What `Module::new` reads of a compiled module. -/
structure CompiledInterface where
  moduleHandles : List ModuleHandle
  selfModuleHandle : Fin moduleHandles.length
  identifiers : List String
  structHandles : List (StructHandle moduleHandles.length)
  structDefs : List (StructDefinition structHandles.length)
  functionDefs : List FunctionDefinition
  named : ∀ h ∈ structHandles, h.name ∈ identifiers

namespace CompiledInterface
variable (m : CompiledInterface)

def selfHandle : Option ℕ := some m.selfModuleHandle

def imports : Imports := .new m.selfHandle m.moduleHandles

/-- The struct handles, their modules looked up among the imports. -/
def declared : DeclaredUnit where
  identifiers := m.identifiers
  structHandles := m.structHandles.map fun h =>
    let moduleHandle := m.moduleHandles.get h.module
    ⟨h.name, m.imports.getImport moduleHandle.address moduleHandle.name, h.typeParameters⟩
  functions := m.functionDefs.map FunctionDefinition.typeParameters
  structDefs := m.structDefs.map fun d => d.structHandle.cast (List.length_map _).symm
  named := by
    intro h hmem
    obtain ⟨handle, hhandle, rfl⟩ := List.mem_map.mp hmem
    exact m.named handle hhandle

end CompiledInterface

structure Field where
  name : String
  fType : Generics.FType

structure StructDef where
  isNominalResource : Bool
  isNative : Bool
  name : String
  typeParams : List Generic
  fields : List Field
  native_fields : isNative → fields = []

/-- The parameter is written with the mark that it has then. -/
structure Param where
  used : Bool
  index : ℕ
  fType : Generics.FType

/-- `FunctionsDef` of the light version: nothing is acquired, and the body is the same for all. -/
structure FunctionsDef where
  isPublic : Bool
  isNative : Bool
  name : String
  typeParams : List Generic
  ret : List Generics.FType
  params : List Param

/-- `FunctionsDef::params` -/
def newParams (types : List Generics.FType) : List Param := types.zipIdx.map fun x => ⟨false, x.2, x.1⟩

section
variable (m : CompiledInterface) (generic : GenericPrefix)

/-- `none` is an index out of bounds. -/
def extractFields (typeParams : List Generic) (fields : List (String × SignatureToken)) :
    Option (List Field) :=
  fields.mapM fun x => (extractTypeSignature m.declared typeParams x.2).map fun t => ⟨x.1, t⟩

def StructDef.new (d : StructDefinition m.structHandles.length) : Option StructDef :=
  let handler := m.structHandles.get d.structHandle
  let typeParams := extractTypeParams handler.typeParameters generic
  match d.fieldInformation with
  | none => some ⟨handler.isNominalResource, true, handler.name, typeParams, [], fun _ => rfl⟩
  | some fields => (extractFields m typeParams fields).map fun fields => {
    isNominalResource := handler.isNominalResource
    isNative := false
    name := handler.name
    typeParams := typeParams
    fields := fields
    native_fields := fun h => absurd h Bool.false_ne_true }

def FunctionsDef.new (d : FunctionDefinition) : Option FunctionsDef := do
  let typeParams := extractTypeParams d.typeParameters generic
  let ret ← extractTypeSignatures m.declared typeParams d.returns
  let params ← extractTypeSignatures m.declared typeParams d.parameters
  return ⟨d.isPublic, d.isNative, d.name, typeParams, ret, newParams params⟩

end

theorem kinds_of_extracted (params : List Kind) (generic : GenericPrefix) :
    (extractTypeParams params generic).map Generic.kind = params := by
  rw [extractTypeParams, List.map_map]
  exact List.zipIdx_map_fst 0 params

def writeArray (start decimeter : Text) (encoded : List Text) (stop : Text) : Text :=
  start ++ decimeter.intercalate encoded ++ stop

def writeTypeParameters (typeParams : List Generic) : Text :=
  if typeParams.isEmpty then []
  else writeArray "<".toList ", ".toList (typeParams.map Generic.encode) ">".toList

def Field.encode (f : Field) (indent : ℕ) : Text :=
  spaces indent ++ f.name.toList ++ ": ".toList ++ f.fType.encode

def encodeFields (fields : List Field) (indent : ℕ) : Text :=
  if fields.isEmpty then []
  else ",\n".toList.intercalate (fields.map (Field.encode · indent)) ++ "\n".toList

def nominalName (isNominalResource isNative : Bool) : Text :=
  if isNominalResource then "resource struct".toList
  else if isNative then "native struct".toList
  else "struct".toList

def StructDef.encode (s : StructDef) (indent : ℕ) : Text :=
  spaces indent ++ nominalName s.isNominalResource s.isNative ++ " ".toList ++ s.name.toList ++
    writeTypeParameters s.typeParams ++
    if s.isNative then ";".toList
    else " \x7b\n".toList ++ encodeFields s.fields (indent + INDENT) ++ spaces indent ++ "\x7d".toList

def Param.encode (p : Param) : Text :=
  Param.writeName p.used p.index ++ ": ".toList ++ p.fType.encode

def encodeRet : List Generics.FType → Text
  | [] => []
  | [t] => ": ".toList ++ t.encode
  | ts => ": ".toList ++ writeArray "(".toList ", ".toList (ts.map Generics.FType.encode) ")".toList

/-- `Body::mock`: there is nothing but `abort 1`. -/
def mockBody (indent : ℕ) : Text := "\n".toList ++ spaces (indent + INDENT) ++ "abort 1".toList

def FunctionsDef.encode (f : FunctionsDef) (indent : ℕ) : Text :=
  spaces indent ++ (if f.isNative then "native ".toList else []) ++
    (if f.isPublic then "public ".toList else []) ++ "fun ".toList ++ f.name.toList ++
    writeTypeParameters f.typeParams ++
    writeArray "(".toList ", ".toList (f.params.map Param.encode) ")".toList ++ encodeRet f.ret ++
    if f.isNative then ";".toList
    else " \x7b".toList ++ mockBody indent ++ "\n".toList ++ spaces indent ++ "\x7d".toList

/-- The light version of a module, as far as it is printed. -/
structure Interface where
  name : String
  imports : Imports
  structs : List StructDef
  functions : List FunctionsDef

def Interface.encode (m : Interface) : Text :=
  "module ".toList ++ m.name.toList ++ " \x7b\n".toList ++ m.imports.encode INDENT ++ "\n".toList ++
    m.structs.flatMap (fun s => s.encode INDENT ++ "\n\n".toList) ++
    m.functions.flatMap (fun f => f.encode INDENT ++ "\n\n".toList) ++ "\x7d\n".toList

def Interface.new (m : CompiledInterface) (random : ℕ) : Option Interface := do
  let generic := Generics.new m.identifiers random
  let structs ← m.structDefs.mapM (StructDef.new m generic)
  let functions ← m.functionDefs.mapM (FunctionsDef.new m generic)
  return {
    name := (m.moduleHandles.get m.selfModuleHandle).name
    imports := m.imports
    structs
    functions }

end MoveTools.Disassembler.Declarations
