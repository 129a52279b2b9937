import MoveTools.Disassembler.Declarations
import MoveTools.Library.Collect

namespace MoveTools.Disassembler.Declarations
open Generics (Kind Generic GenericPrefix SignatureToken FullStructName extractTypeParams
  extractTypeSignature extractTypeSignatures extractStructName)

/-! What a compiled module declares, without its tables: structs are told by their modules, and what
is declared can be read off the printed tree. -/

/-- A struct by its module, where this is not the module that is read itself. -/
structure StructRef where
  module : Option ModuleHandle
  name : String

inductive DeclaredType where
  | Bool | U8 | U64 | U128 | Address | Signer
  | Vector (t : DeclaredType)
  | Struct (struct : Option StructRef)
  | StructInstantiation (struct : Option StructRef) (typed : List DeclaredType)
  | Reference (t : DeclaredType)
  | MutableReference (t : DeclaredType)
  | TypeParameter (index : ℕ)

structure DeclaredStruct where
  isNominalResource : Bool
  name : String
  typeParameters : List Kind
  /-- None of a native struct. -/
  fields : Option (List (String × DeclaredType))

structure DeclaredFunction where
  isPublic : Bool
  isNative : Bool
  name : String
  typeParameters : List Kind
  returns : List DeclaredType
  parameters : List DeclaredType

structure ModuleDeclarations where
  name : String
  /-- Under which name a module is used, if it is. -/
  uses : ModuleHandle → Option Import
  structs : List DeclaredStruct
  functions : List DeclaredFunction

namespace CompiledInterface
variable (m : CompiledInterface)

def moduleOf (handle : ModuleHandle) : Option ModuleHandle :=
  if (Imports.imported m.selfHandle m.moduleHandles).contains handle then some handle else none

def structRef (h : StructHandle m.moduleHandles.length) : StructRef :=
  ⟨m.moduleOf (m.moduleHandles.get h.module), h.name⟩

mutual

def typeOf : SignatureToken → DeclaredType
  | .U8 => .U8
  | .Bool => .Bool
  | .U64 => .U64
  | .U128 => .U128
  | .Address => .Address
  | .Signer => .Signer
  | .Vector sign => .Vector (typeOf sign)
  | .Struct index => .Struct (m.structHandles[index]?.map m.structRef)
  | .StructInstantiation index typed =>
    .StructInstantiation (m.structHandles[index]?.map m.structRef) (typesOf typed)
  | .Reference sign => .Reference (typeOf sign)
  | .MutableReference sign => .MutableReference (typeOf sign)
  | .TypeParameter index => .TypeParameter index

def typesOf : List SignatureToken → List DeclaredType
  | [] => []
  | sign :: signs => typeOf sign :: typesOf signs

end

def structOf (d : StructDefinition m.structHandles.length) : DeclaredStruct where
  isNominalResource := (m.structHandles.get d.structHandle).isNominalResource
  name := (m.structHandles.get d.structHandle).name
  typeParameters := (m.structHandles.get d.structHandle).typeParameters
  fields := d.fieldInformation.map fun fields => fields.map fun x => (x.1, m.typeOf x.2)

def functionOf (d : FunctionDefinition) : DeclaredFunction where
  isPublic := d.isPublic
  isNative := d.isNative
  name := d.name
  typeParameters := d.typeParameters
  returns := m.typesOf d.returns
  parameters := m.typesOf d.parameters

/-- The modules of one name are numbered in the order of the table. -/
def usedAs (handle : ModuleHandle) : Option Import :=
  Imports.importAt handle.name
    (Imports.addressesOf handle.name (Imports.imported m.selfHandle m.moduleHandles)) handle.address

def declarations : ModuleDeclarations where
  name := (m.moduleHandles.get m.selfModuleHandle).name
  uses := m.usedAs
  structs := m.structDefs.map m.structOf
  functions := m.functionDefs.map m.functionOf

end CompiledInterface

section
variable (entries : List (String × AccountAddress × Import))

/-- What an import stands for in a list of uses. -/
def usedModule (import_ : Import) : Option ModuleHandle :=
  (entries.find? fun x => x.2.2 = import_).map fun x => ⟨x.2.1, x.1⟩

def usedAsShown (handle : ModuleHandle) : Option Import :=
  (entries.find? fun x => x.1 = handle.name ∧ x.2.1 = handle.address).map fun x => x.2.2

def structShown (name : FullStructName) : StructRef :=
  ⟨name.import_.bind (usedModule entries), name.name⟩

def primitiveShown (name : Text) : DeclaredType :=
  if name = "u8".toList then .U8
  else if name = "bool".toList then .Bool
  else if name = "u64".toList then .U64
  else if name = "u128".toList then .U128
  else if name = "address".toList then .Address
  else .Signer

mutual

def typeShown : Generics.FType → DeclaredType
  | .Generic g => .TypeParameter g.index
  | .Primitive name => primitiveShown name
  | .Ref t => .Reference (typeShown t)
  | .RefMut t => .MutableReference (typeShown t)
  | .Vec t => .Vector (typeShown t)
  | .Struct name => .Struct (some (structShown entries name))
  | .StructInst name generics =>
    .StructInstantiation (some (structShown entries name)) (typesShown generics)

def typesShown : List Generics.FType → List DeclaredType
  | [] => []
  | t :: ts => typeShown t :: typesShown ts

end

def StructDef.shown (s : StructDef) : DeclaredStruct where
  isNominalResource := s.isNominalResource
  name := s.name
  typeParameters := s.typeParams.map Generic.kind
  fields := if s.isNative then none else some (s.fields.map fun f => (f.name, typeShown entries f.fType))

def FunctionsDef.shown (f : FunctionsDef) : DeclaredFunction where
  isPublic := f.isPublic
  isNative := f.isNative
  name := f.name
  typeParameters := f.typeParams.map Generic.kind
  returns := typesShown entries f.ret
  parameters := typesShown entries (f.params.map Param.fType)

def Interface.shown (i : Interface) : ModuleDeclarations where
  name := i.name
  uses := usedAsShown i.imports.entries
  structs := i.structs.map (StructDef.shown i.imports.entries)
  functions := i.functions.map (FunctionsDef.shown i.imports.entries)

end

section
variable {m : CompiledInterface}

theorem built_imports (m : CompiledInterface) :
    Imports.Built (Imports.imported m.selfHandle m.moduleHandles) m.imports.imports :=
  Imports.built_new m.selfHandle m.moduleHandles

theorem usedAs_shown (m : CompiledInterface) : usedAsShown m.imports.entries = m.usedAs := by
  funext handle
  apply Collect.find?_map_eq
  · intro x hx hat
    obtain ⟨hname, haddress⟩ : x.1 = handle.name ∧ x.2.1 = handle.address := by simpa using hat
    rw [CompiledInterface.usedAs, ← hname, ← haddress]
    exact (built_imports m).mem_entries.mp hx
  · intro import_ himport
    exact ⟨_, (built_imports m).mem_entries.mpr himport, by simp⟩

theorem getImport_eq_none_iff (handle : ModuleHandle) :
    m.imports.getImport handle.address handle.name = none ↔ m.moduleOf handle = none := by
  have hget := (built_imports m).getImport_eq handle.address handle.name
  change m.imports.getImport handle.address handle.name = _ at hget
  rw [hget, Imports.importAt_eq_none, Imports.mem_addressesOf, CompiledInterface.moduleOf]
  simp

theorem usedModule_entry
    (hdistinct : (m.imports.entries.map Imports.introduced).Nodup)
    {x : String × AccountAddress × Import} (hx : x ∈ m.imports.entries) :
    usedModule m.imports.entries x.2.2 = some ⟨x.2.1, x.1⟩ := by
  apply Collect.find?_map_eq
  · intro y hy hat
    have himport : y.2.2 = x.2.2 := by simpa using hat
    have hintroduced : Imports.introduced y = Imports.introduced x := by
      rw [(built_imports m).introduced_eq hy, (built_imports m).introduced_eq hx, himport]
    rw [List.inj_on_of_nodup_map hdistinct hy hx hintroduced]
  · intro handle _
    exact ⟨x, hx, by simp⟩

theorem extractStructName_handle {index : ℕ} {name : FullStructName}
    (h : extractStructName m.declared index = some name) :
    ∃ handle, m.structHandles[index]? = some handle ∧ name = ⟨handle.name,
      m.imports.getImport (m.moduleHandles.get handle.module).address
        (m.moduleHandles.get handle.module).name⟩ := by
  unfold extractStructName CompiledInterface.declared at h
  rw [List.getElem?_map, Option.map_map] at h
  obtain ⟨handle, hhandle, rfl⟩ := Option.map_eq_some_iff.mp h
  exact ⟨handle, hhandle, rfl⟩

variable (hdistinct : (m.imports.entries.map Imports.introduced).Nodup)
include hdistinct

theorem moduleOf_shown (handle : ModuleHandle) :
    (m.imports.getImport handle.address handle.name).bind (usedModule m.imports.entries) =
      m.moduleOf handle := by
  cases hget : m.imports.getImport handle.address handle.name with
  | none => exact ((getImport_eq_none_iff handle).mp hget).symm
  | some import_ =>
    have hentry : (handle.name, handle.address, import_) ∈ m.imports.entries := by
      apply (built_imports m).mem_entries.mpr
      rw [← (built_imports m).getImport_eq]
      exact hget
    have hmodule : m.moduleOf handle ≠ none := by
      intro hnone
      rw [(getImport_eq_none_iff handle).mpr hnone] at hget
      cases hget
    have hsome : m.moduleOf handle = some handle := by
      unfold CompiledInterface.moduleOf at hmodule ⊢
      split at hmodule
      · rename_i hin
        exact if_pos hin
      · exact absurd rfl hmodule
    rw [hsome]
    exact usedModule_entry hdistinct hentry

theorem structShown_eq {index : ℕ} {name : FullStructName}
    (h : extractStructName m.declared index = some name) :
    m.structHandles[index]?.map m.structRef = some (structShown m.imports.entries name) := by
  obtain ⟨handle, hhandle, rfl⟩ := extractStructName_handle h
  rw [hhandle]
  exact congrArg some (congrArg (StructRef.mk · handle.name)
    (moduleOf_shown hdistinct (m.moduleHandles.get handle.module)).symm)

end

section
variable {m : CompiledInterface}

mutual

theorem typeShown_eq (hdistinct : (m.imports.entries.map Imports.introduced).Nodup)
    {params : List Kind} {generics : GenericPrefix} :
    ∀ {sign : SignatureToken} {t : Generics.FType},
      extractTypeSignature m.declared (extractTypeParams params generics) sign = some t →
        typeShown m.imports.entries t = m.typeOf sign
  | .U8, t, ht | .Bool, t, ht | .U64, t, ht | .U128, t, ht | .Address, t, ht | .Signer, t, ht => by
    cases ht
    rfl
  | .Vector sign, t, ht | .Reference sign, t, ht | .MutableReference sign, t, ht => by
    obtain ⟨inner, hinner, rfl⟩ := Option.map_eq_some_iff.mp ht
    rw [typeShown, CompiledInterface.typeOf, typeShown_eq hdistinct hinner]
  | .Struct index, t, ht => by
    obtain ⟨name, hname, rfl⟩ := Option.map_eq_some_iff.mp ht
    rw [typeShown, CompiledInterface.typeOf, structShown_eq hdistinct hname]
  | .StructInstantiation index typed, t, ht => by
    obtain ⟨name, hname, ht⟩ := Option.bind_eq_some_iff.mp ht
    obtain ⟨ts, hts, rfl⟩ := Option.map_eq_some_iff.mp ht
    rw [typeShown, CompiledInterface.typeOf, structShown_eq hdistinct hname, typesShown_eq hdistinct hts]
  | .TypeParameter index, t, ht => by
    obtain ⟨g, hg, rfl⟩ := Option.map_eq_some_iff.mp ht
    rw [typeShown, CompiledInterface.typeOf, Generics.typeParam_index hg]

theorem typesShown_eq (hdistinct : (m.imports.entries.map Imports.introduced).Nodup)
    {params : List Kind} {generics : GenericPrefix} :
    ∀ {signs : List SignatureToken} {ts : List Generics.FType},
      extractTypeSignatures m.declared (extractTypeParams params generics) signs = some ts →
        typesShown m.imports.entries ts = m.typesOf signs
  | [], ts, hts => by
    cases hts
    rfl
  | sign :: signs, ts, hts => by
    obtain ⟨t, ht, hts⟩ := Option.bind_eq_some_iff.mp hts
    obtain ⟨us, hus, rfl⟩ := Option.map_eq_some_iff.mp hts
    rw [typesShown, CompiledInterface.typesOf, typeShown_eq hdistinct ht, typesShown_eq hdistinct hus]

end

variable (hdistinct : (m.imports.entries.map Imports.introduced).Nodup)
include hdistinct

theorem struct_shown {generics : GenericPrefix} {d : StructDefinition m.structHandles.length}
    {s : StructDef} (hs : StructDef.new m generics d = some s) :
    s.shown m.imports.entries = m.structOf d := by
  unfold StructDef.new at hs
  unfold StructDef.shown CompiledInterface.structOf
  cases hinfo : d.fieldInformation with
  | none =>
    rw [hinfo] at hs
    obtain rfl := Option.some.inj hs
    simp only [kinds_of_extracted, if_true, Option.map_none]
  | some declared =>
    rw [hinfo] at hs
    obtain ⟨fields, hfields, rfl⟩ := Option.map_eq_some_iff.mp hs
    have hshown : fields.map (fun f => (f.name, typeShown m.imports.entries f.fType)) =
        declared.map fun x => (x.1, m.typeOf x.2) := by
      refine Collect.map_of_mapM hfields fun x _ f hf => ?_
      obtain ⟨t, ht, rfl⟩ := Option.map_eq_some_iff.mp hf
      exact congrArg (Prod.mk x.1) (typeShown_eq hdistinct ht)
    simp only [kinds_of_extracted, Bool.false_eq_true, if_false, Option.map_some, hshown]

theorem function_shown {generics : GenericPrefix} {d : FunctionDefinition} {f : FunctionsDef}
    (hf : FunctionsDef.new m generics d = some f) :
    f.shown m.imports.entries = m.functionOf d := by
  obtain ⟨ret, hret, hf⟩ := Option.bind_eq_some_iff.mp hf
  obtain ⟨params, hparams, hf⟩ := Option.bind_eq_some_iff.mp hf
  obtain rfl := Option.some.inj hf
  have htypes : (newParams params).map Param.fType = params := by
    rw [newParams, List.map_map]
    exact List.zipIdx_map_fst 0 params
  unfold FunctionsDef.shown CompiledInterface.functionOf
  simp only [kinds_of_extracted, htypes, typesShown_eq hdistinct hret, typesShown_eq hdistinct hparams]

/-- Where the uses have different names, all that a module declares is in its tree. -/
theorem interface_shown {random : ℕ} {i : Interface} (hi : Interface.new m random = some i) :
    i.shown = m.declarations := by
  obtain ⟨structs, hstructs, hi⟩ := Option.bind_eq_some_iff.mp hi
  obtain ⟨functions, hfunctions, hi⟩ := Option.bind_eq_some_iff.mp hi
  obtain rfl := Option.some.inj hi
  have hstructsShown := Collect.map_of_mapM hstructs fun d _ s hs => struct_shown hdistinct hs
  have hfunctionsShown := Collect.map_of_mapM hfunctions fun d _ f hf => function_shown hdistinct hf
  unfold Interface.shown CompiledInterface.declarations
  simp only [hstructsShown, hfunctionsShown, usedAs_shown]

end

end MoveTools.Disassembler.Declarations
