import MoveTools.Library.Hex
import MoveTools.Disassembler.Unit
import MoveTools.Syntax.Ast

namespace MoveTools.Disassembler
open Syntax

/-- Account addresses are ordered byte by byte. -/
abbrev AccountAddress := Address

/-- `BTreeMap::entry` with a change of what is there: the keys stay in order. -/
def upsert {κ β : Type} [DecidableEq κ] [LT κ] [DecidableLT κ] (key : κ) (change : Option β → β) :
    List (κ × β) → List (κ × β)
  | [] => [(key, change none)]
  | (k, b) :: rest =>
    if key = k then (k, change (some b)) :: rest
    else if key < k then (key, change none) :: (k, b) :: rest
    else (k, b) :: upsert key change rest

/-- For each module name, the addresses it is imported from. -/
structure Imports where
  imports : List (String × List (AccountAddress × Import))

structure ModuleHandle where
  address : AccountAddress
  name : String
  deriving DecidableEq, Repr

namespace Imports

/-- Only the first address gets the plain name. -/
def insertName (handle : ModuleHandle) (nameMap : List (AccountAddress × Import)) :
    List (AccountAddress × Import) :=
  let count := nameMap.length
  upsert handle.address (fun
    | some import_ => import_
    | none => if count = 0 then .Name handle.name else .Alias handle.name count) nameMap

def insert (m : List (String × List (AccountAddress × Import))) (handle : ModuleHandle) :
    List (String × List (AccountAddress × Import)) :=
  upsert handle.name (fun nameMap => insertName handle (nameMap.getD [])) m

/-- Every handle but the unit's own one. -/
def new (selfModuleHandle : Option ℕ) (handles : List ModuleHandle) : Imports :=
  ⟨(handles.zipIdx.filter fun x => some x.2 ≠ selfModuleHandle).foldl
    (fun m x => insert m x.1) []⟩

def entries (i : Imports) : List (String × AccountAddress × Import) :=
  i.imports.flatMap fun x => x.2.map fun y => (x.1, y)

end Imports

/-- `{}` of an address: two lower-case digits a byte. -/
def displayAddress (address : AccountAddress) : Text :=
  Hex.encodeLower (address.map UInt8.toNat)

def INDENT : ℕ := 4

def spaces (width : ℕ) : Text := List.replicate width ' '

def Import.suffix : Import → Text
  | .Name _ => []
  | .Alias name id => " as ".toList ++ name.toList ++ "_".toList ++ (toString id).toList

namespace Imports

def encodeUse (indent : ℕ) (x : String × AccountAddress × Import) : Text :=
  spaces indent ++ "use 0x".toList ++ displayAddress x.2.1 ++ "::".toList ++ x.1.toList ++
    x.2.2.suffix ++ ";\n".toList

def encode (i : Imports) (indent : ℕ) : Text := i.entries.flatMap (encodeUse indent)

/-- What a written `use` says. -/
def useOf (x : String × AccountAddress × Import) : Use :=
  .Module ⟨x.2.1, x.1⟩ (match x.2.2 with
    | .Name _ => none
    | .Alias name id => some (name ++ "_" ++ toString id))

end Imports

/-- A struct or a function in source code: how it is written, and what that says. -/
structure Declaration where
  text : Text
  member : ModuleMember

structure Module where
  address : Option AccountAddress
  name : String
  structs : List Declaration
  functions : List Declaration
  imports : Imports

/-- A module in bytecode. Its definitions are given as the disassembler declares them, without the
bodies of functions. -/
structure CompiledModule where
  moduleHandles : List ModuleHandle
  selfModuleHandle : Fin moduleHandles.length
  structs : List Declaration
  functions : List Declaration

def CompiledModule.selfId (m : CompiledModule) : ModuleHandle :=
  m.moduleHandles.get m.selfModuleHandle

namespace Module

def new (m : CompiledModule) : Module where
  address := none
  name := m.selfId.name
  structs := m.structs
  functions := m.functions
  imports := .new (some m.selfModuleHandle) m.moduleHandles

def encode (m : Module) : Text :=
  (match m.address with
    | some address => "address 0x".toList ++ displayAddress address ++ " \x7b \n".toList
    | none => []) ++
  "module ".toList ++ m.name.toList ++ " \x7b\n".toList ++
  m.imports.encode INDENT ++ "\n".toList ++
  m.structs.flatMap (fun s => s.text ++ "\n\n".toList) ++
  m.functions.flatMap (fun f => f.text ++ "\n\n".toList) ++
  "\x7d\n".toList ++
  (match m.address with
    | some _ => "\x7d\n".toList
    | none => [])

def definition (m : Module) : Definition :=
  let module : ModuleDefinition := {
    name := m.name
    members := m.imports.entries.map (fun x => .Use (Imports.useOf x)) ++
      m.structs.map Declaration.member ++ m.functions.map Declaration.member }
  match m.address with
  | some address => .Address address [module]
  | none => .Module module

end Module
end MoveTools.Disassembler
