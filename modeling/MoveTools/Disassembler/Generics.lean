import Mathlib.Data.List.Nodup
import MoveTools.Library.Decimal
import MoveTools.Disassembler.Module

namespace MoveTools.Disassembler.Generics

inductive Kind where
  | All
  | Resource
  | Copyable
  deriving DecidableEq, Repr

def GENERICS_PREFIX : List String :=
  ["T", "G", "V", "A", "B", "C", "D", "F", "H", "J", "K", "L", "M", "N", "P", "Q", "R", "S", "W", "X",
    "Y", "Z"]

inductive GenericPrefix where
  | SimplePrefix (p : String)
  | Generated (p : ℕ)
  deriving DecidableEq, Repr

structure Generic where
  generics : GenericPrefix
  index : ℕ
  kind : Kind
  deriving DecidableEq, Repr

/-- `Generics::new`, where `random` is what `rand::random` returns. -/
def new (identifiers : List String) (random : ℕ) : GenericPrefix :=
  match GENERICS_PREFIX.find? fun p => !identifiers.contains p with
  | some p => .SimplePrefix p
  | none => .Generated random

def GenericPrefix.encode : GenericPrefix → Text
  | SimplePrefix p => p.toList
  | Generated p => "TYPE".toList ++ Decimal.display p

/-- `GenericName::encode` -/
def Generic.asName (g : Generic) : Text :=
  g.generics.encode ++ if g.index ≠ 0 then Decimal.display g.index else []

def Generic.encode (g : Generic) : Text :=
  g.asName ++ match g.kind with
    | .All => []
    | .Resource => ": resource".toList
    | .Copyable => ": copyable".toList

def extractTypeParams (params : List Kind) (generics : GenericPrefix) : List Generic :=
  params.zipIdx.map fun x => ⟨generics, x.2, x.1⟩

inductive SignatureToken where
  | Bool | U8 | U64 | U128 | Address | Signer
  | Vector (t : SignatureToken)
  | Struct (index : ℕ)
  | StructInstantiation (index : ℕ) (typed : List SignatureToken)
  | Reference (t : SignatureToken)
  | MutableReference (t : SignatureToken)
  | TypeParameter (index : ℕ)

structure FullStructName where
  name : String
  import_ : Option Import
  deriving DecidableEq, Repr

inductive FType where
  | Generic (g : Generic)
  | Primitive (name : Text)
  | Ref (t : FType)
  | RefMut (t : FType)
  | Vec (t : FType)
  | Struct (name : FullStructName)
  | StructInst (name : FullStructName) (generics : List FType)

structure StructHandle where
  name : String
  import_ : Option Import
  typeParameters : List Kind
  deriving DecidableEq, Repr

structure DeclaredUnit where
  identifiers : List String
  structHandles : List StructHandle
  /-- Of the functions of a module, or of the script. -/
  functions : List (List Kind)
  structDefs : List (Fin structHandles.length)
  named : ∀ h ∈ structHandles, h.name ∈ identifiers

def DeclaredUnit.declarations (u : DeclaredUnit) : List (List Kind) :=
  u.functions ++ u.structDefs.map fun i => (u.structHandles.get i).typeParameters

variable (u : DeclaredUnit)

def extractStructName (index : ℕ) : Option FullStructName :=
  u.structHandles[index]?.map fun h => ⟨h.name, h.import_⟩

mutual

/-- `none` is an index out of bounds. -/
def extractTypeSignature (typeParams : List Generic) : SignatureToken → Option FType
  | .U8 => some (.Primitive "u8".toList)
  | .Bool => some (.Primitive "bool".toList)
  | .U64 => some (.Primitive "u64".toList)
  | .U128 => some (.Primitive "u128".toList)
  | .Address => some (.Primitive "address".toList)
  | .Signer => some (.Primitive "signer".toList)
  | .Vector sign => (extractTypeSignature typeParams sign).map .Vec
  | .Struct index => (extractStructName u index).map .Struct
  | .StructInstantiation index typed =>
    (extractStructName u index).bind fun name =>
      (extractTypeSignatures typeParams typed).map (.StructInst name)
  | .Reference sign => (extractTypeSignature typeParams sign).map .Ref
  | .MutableReference sign => (extractTypeSignature typeParams sign).map .RefMut
  | .TypeParameter index => typeParams[index]?.map .Generic

def extractTypeSignatures (typeParams : List Generic) : List SignatureToken → Option (List FType)
  | [] => some []
  | sign :: signs =>
    (extractTypeSignature typeParams sign).bind fun t =>
      (extractTypeSignatures typeParams signs).map (t :: ·)

end

mutual

def FType.structNames : FType → List FullStructName
  | .Generic _ | .Primitive _ => []
  | .Ref t | .RefMut t | .Vec t => t.structNames
  | .Struct name => [name]
  | .StructInst name generics => name :: structNamesOf generics

def structNamesOf : List FType → List FullStructName
  | [] => []
  | t :: ts => t.structNames ++ structNamesOf ts

end

def names (params : List Kind) (random : ℕ) : List Text :=
  (extractTypeParams params (new u.identifiers random)).map Generic.asName

/-- No two of the names are the same, and none is an identifier. So no struct that is printed
without its module has such a name. -/
structure Fresh (params : List Kind) (random : ℕ) : Prop where
  nodup : (names u params random).Nodup
  not_identifier : ∀ s ∈ u.identifiers, s.toList ∉ names u params random
  not_captured : ∀ sign t,
    extractTypeSignature u (extractTypeParams params (new u.identifiers random)) sign = some t →
      ∀ name ∈ t.structNames, name.import_ = none → name.name.toList ∉ names u params random

def IsIndex (n : ℕ) (s : Text) : Prop := Decimal.IsPositive s ∧ Decimal.value s < n

/-- The first letter of the table that is no identifier starts no identifier that goes on with an
index. Where every letter is one, this has to hold of the random name, which may not be an
identifier itself. -/
def NoneNumbered (n random : ℕ) : Prop :=
  match GENERICS_PREFIX.find? fun p => !u.identifiers.contains p with
  | some p => ∀ s ∈ u.identifiers, ∀ rest, s.toList = p.toList ++ rest → ¬IsIndex n rest
  | none => ∀ s ∈ u.identifiers, ∀ rest,
      s.toList = "TYPE".toList ++ Decimal.display random ++ rest →
        ¬IsIndex n rest ∧ ¬(rest = [] ∧ 0 < n)

variable {u}

theorem names_eq (params : List Kind) (random : ℕ) :
    names u params random = (List.range params.length).map fun i =>
      (new u.identifiers random).encode ++ if i ≠ 0 then Decimal.display i else [] := by
  unfold names extractTypeParams
  refine List.ext_getElem (by simp) fun i h h' => ?_
  simp [Generic.asName]

theorem mem_names_iff {params : List Kind} {random : ℕ} {s : Text} :
    s ∈ names u params random ↔
      ∃ i < params.length, s = (new u.identifiers random).encode ++
        if i ≠ 0 then Decimal.display i else [] := by
  rw [names_eq, List.mem_map]
  simp only [List.mem_range, eq_comm]

theorem names_nodup (params : List Kind) (random : ℕ) : (names u params random).Nodup := by
  rw [names_eq]
  refine List.Nodup.map (fun i j heq => ?_) List.nodup_range
  replace heq := List.append_cancel_left heq
  by_cases hi : i = 0
  · by_cases hj : j = 0
    · rw [hi, hj]
    · rw [if_neg (not_not.mpr hi), if_pos hj] at heq
      exact absurd heq.symm Nat.toDigits_ne_nil
  · by_cases hj : j = 0
    · rw [if_pos hi, if_neg (not_not.mpr hj)] at heq
      exact absurd heq Nat.toDigits_ne_nil
    · rw [if_pos hi, if_pos hj] at heq
      exact Decimal.display_injective heq

theorem extractStructName_named {index : ℕ} {name : FullStructName}
    (h : extractStructName u index = some name) : name.name ∈ u.identifiers := by
  obtain ⟨handle, hhandle, rfl⟩ := Option.map_eq_some_iff.mp h
  exact u.named handle (List.mem_of_getElem? hhandle)

mutual

theorem structNames_named {typeParams : List Generic} : ∀ {sign : SignatureToken} {t : FType},
    extractTypeSignature u typeParams sign = some t →
      ∀ name ∈ t.structNames, name.name ∈ u.identifiers
  | .U8, t, h | .Bool, t, h | .U64, t, h | .U128, t, h | .Address, t, h | .Signer, t, h => by
    cases h
    intro name hname
    rw [FType.structNames] at hname
    cases hname
  | .Vector sign, t, h | .Reference sign, t, h | .MutableReference sign, t, h => by
    obtain ⟨inner, hinner, rfl⟩ := Option.map_eq_some_iff.mp h
    intro name hname
    rw [FType.structNames] at hname
    exact structNames_named hinner name hname
  | .Struct index, t, h => by
    obtain ⟨full, hfull, rfl⟩ := Option.map_eq_some_iff.mp h
    intro name hname
    rw [FType.structNames, List.mem_singleton] at hname
    rw [hname]
    exact extractStructName_named hfull
  | .StructInstantiation index typed, t, h => by
    obtain ⟨full, hfull, h⟩ := Option.bind_eq_some_iff.mp h
    obtain ⟨ts, hts, rfl⟩ := Option.map_eq_some_iff.mp h
    intro name hname
    rw [FType.structNames, List.mem_cons] at hname
    rcases hname with rfl | hname
    · exact extractStructName_named hfull
    · exact structNamesOf_named hts name hname
  | .TypeParameter index, t, h => by
    obtain ⟨g, -, rfl⟩ := Option.map_eq_some_iff.mp h
    intro name hname
    rw [FType.structNames] at hname
    cases hname

theorem structNamesOf_named {typeParams : List Generic} :
    ∀ {signs : List SignatureToken} {ts : List FType},
      extractTypeSignatures u typeParams signs = some ts →
        ∀ name ∈ structNamesOf ts, name.name ∈ u.identifiers
  | [], ts, h => by
    cases h
    intro name hname
    rw [structNamesOf] at hname
    cases hname
  | sign :: signs, ts, h => by
    obtain ⟨t, ht, h⟩ := Option.bind_eq_some_iff.mp h
    obtain ⟨us, hus, rfl⟩ := Option.map_eq_some_iff.mp h
    intro name hname
    rw [structNamesOf, List.mem_append] at hname
    rcases hname with hname | hname
    · exact structNames_named ht name hname
    · exact structNamesOf_named hus name hname

end

theorem fresh_iff {params : List Kind} {random : ℕ} :
    Fresh u params random ↔ ∀ s ∈ u.identifiers, s.toList ∉ names u params random := by
  constructor
  · exact Fresh.not_identifier
  · intro h
    refine ⟨names_nodup params random, h, fun sign t ht name hname _ => ?_⟩
    exact h _ (structNames_named ht name hname)

theorem exists_index_iff {n : ℕ} {s first : Text} :
    (∃ i < n, s = first ++ if i ≠ 0 then Decimal.display i else []) ↔
      ∃ rest, s = first ++ rest ∧ (IsIndex n rest ∨ rest = [] ∧ 0 < n) := by
  constructor
  · rintro ⟨i, hi, rfl⟩
    refine ⟨_, rfl, ?_⟩
    by_cases h0 : i = 0
    · rw [if_neg (not_not.mpr h0)]
      exact .inr ⟨rfl, by omega⟩
    · rw [if_pos h0]
      exact .inl (Decimal.isPositive_below_iff.mpr ⟨i, by omega, hi, rfl⟩)
  · rintro ⟨rest, rfl, hrest | ⟨rfl, hn⟩⟩
    · obtain ⟨i, hpos, hi, rfl⟩ := Decimal.isPositive_below_iff.mp hrest
      exact ⟨i, hi, by rw [if_pos (by omega)]⟩
    · exact ⟨0, hn, rfl⟩

theorem fresh_iff_noneNumbered {params : List Kind} {random : ℕ} :
    Fresh u params random ↔ NoneNumbered u params.length random := by
  rw [fresh_iff, NoneNumbered]
  simp only [mem_names_iff, exists_index_iff, new]
  cases hfind : GENERICS_PREFIX.find? fun p => !u.identifiers.contains p with
  | some p =>
    have hfree : p ∉ u.identifiers := by simpa using List.find?_some hfind
    refine forall₂_congr fun s hs => ?_
    constructor
    · exact fun h rest hrest hindex => h ⟨rest, hrest, .inl hindex⟩
    · rintro h ⟨rest, hrest, hindex | ⟨rfl, -⟩⟩
      · exact h rest hrest hindex
      · -- the letter alone was tested
        rw [List.append_nil] at hrest
        exact hfree (String.toList_inj.mp hrest ▸ hs)
  | none =>
    refine forall₂_congr fun s hs => ?_
    constructor
    · exact fun h rest hrest => ⟨fun hindex => h ⟨rest, hrest, .inl hindex⟩,
        fun hnil => h ⟨rest, hrest, .inr hnil⟩⟩
    · rintro h ⟨rest, hrest, hindex | hnil⟩
      · exact (h rest hrest).1 hindex
      · exact (h rest hrest).2 hnil

/-- The names are fresh in all of a unit just where no identifier looks numbered. -/
theorem type_parameters_fresh_iff (u : DeclaredUnit) (random : ℕ) :
    (∀ params ∈ u.declarations, Fresh u params random) ↔
      ∀ params ∈ u.declarations, NoneNumbered u params.length random :=
  forall₂_congr fun _ _ => fresh_iff_noneNumbered

/-- `module M { struct T1 {} fun f<T, T1>(x: T1) {} }`, of which the names of the type
parameters are not kept. -/
def numberedUnit : DeclaredUnit where
  identifiers := ["M", "T1", "f"]
  structHandles := [⟨"T1", none, []⟩]
  functions := [[.All, .All]]
  structDefs := [0]
  named := by decide

theorem second_parameter_captures : ¬∀ (u : DeclaredUnit) (random : ℕ),
    ∀ params ∈ u.declarations, Fresh u params random := fun h =>
  (h numberedUnit 0 [.All, .All] (by decide)).not_captured (.Struct 0) _ rfl ⟨"T1", none⟩
    (by simp [FType.structNames]) rfl (by decide)

end MoveTools.Disassembler.Generics
