import MoveTools.Disassembler.Generics
import MoveTools.Disassembler.Layout

namespace MoveTools.Disassembler
open Generics (SignatureToken Generic DeclaredUnit extractTypeSignature extractTypeSignatures)

def Import.encode : Import → Text
  | .Name name => name.toList
  | .Alias name id => name.toList ++ "_".toList ++ (toString id).toList

def Generics.FullStructName.encode (name : Generics.FullStructName) : Text :=
  (match name.import_ with
    | some import_ => import_.encode ++ "::".toList
    | none => []) ++ name.name.toList

mutual

def Generics.FType.encode : Generics.FType → Text
  | .Primitive name => name
  | .Generic typeParam => typeParam.asName
  | .Ref t => "&".toList ++ t.encode
  | .RefMut t => "&mut ".toList ++ t.encode
  | .Vec t => "vector<".toList ++ t.encode ++ ">".toList
  | .Struct name => name.encode
  | .StructInst name [] => name.encode
  | .StructInst name (t :: ts) => name.encode ++ "<".toList ++ t.encode ++ encodeMore ts ++ ">".toList

def Generics.encodeMore : List Generics.FType → Text
  | [] => []
  | t :: ts => ", ".toList ++ t.encode ++ encodeMore ts

end

/-- What a body is made from. The types in `tables` are made from the signatures. -/
structure BodyUnit where
  tables : UnitAccess
  declared : DeclaredUnit
  signatures : List (List SignatureToken)

structure CodeUnit where
  /-- The index of the signature. -/
  locals : ℕ
  code : List Bytecode

structure Body where
  block : Block
  locals : List Local
  varTypes : List Generics.FType
  used : List Local

/-- The signature of its type arguments that an instruction extracts. -/
def Bytecode.signature (tables : UnitAccess) : Bytecode → Option ℕ
  | .CallGeneric index => some (tables.functionInstantiation index).typeParameters
  | .ExistsGeneric index | .MoveFromGeneric index | .MoveToGeneric index
  | .ImmBorrowGlobalGeneric index | .MutBorrowGlobalGeneric index | .PackGeneric index
  | .UnpackGeneric index => (tables.structDefInstantiation index).map Instantiation.typeParameters
  | _ => none

section
variable (u : BodyUnit) (code : CodeUnit) (retLen params : ℕ) (typeParams : List Generic)

def BodyUnit.extractSignature (index : ℕ) : Except Stop (List Generics.FType) :=
  match u.signatures[index]?.bind (extractTypeSignatures u.declared typeParams) with
  | some types => .ok types
  | none => .error .panic

/-- What the translator reads, where there are `vars` variables. -/
def BodyUnit.function (vars : ℕ) : Function where
  unit := { u.tables with
    extractSignature := fun index =>
      match u.extractSignature typeParams index with
      | .ok types => types.map fun t => String.ofList t.encode
      | .error _ => [] }
  code := code.code
  locals := (List.range params).map .Param ++ (List.range vars).map .Var
  retLen

/-- In the source a signature is extracted when the translator comes to its instruction, which it
does unless it panics before. -/
def Body.new : Except Stop Body := do
  let varTypes ← u.extractSignature typeParams code.locals
  let _ ← (code.code.filterMap (Bytecode.signature u.tables)).mapM (u.extractSignature typeParams)
  let f := u.function code retLen params typeParams varTypes.length
  let t ← translate f (f.code.length + 1) (bodyTranslator f)
  return ⟨.mk t.expressions false, f.locals, varTypes, t.used⟩

end

section
variable (d : DeclaredUnit) (n : ℕ)

mutual

/-- The structs of a type are declared, and its type parameters are among the first `n`. -/
def InScope : SignatureToken → Prop
  | .Bool | .U8 | .U64 | .U128 | .Address | .Signer => True
  | .Vector t | .Reference t | .MutableReference t => InScope t
  | .Struct index => index < d.structHandles.length
  | .StructInstantiation index typed => index < d.structHandles.length ∧ AllInScope typed
  | .TypeParameter index => index < n

def AllInScope : List SignatureToken → Prop
  | [] => True
  | t :: ts => InScope t ∧ AllInScope ts

end
end

section
variable {d : DeclaredUnit} {typeParams : List Generic}

mutual

theorem extractTypeSignature_isSome : ∀ {sign : SignatureToken},
    InScope d typeParams.length sign → ∃ t, extractTypeSignature d typeParams sign = some t
  | .Bool, _ | .U8, _ | .U64, _ | .U128, _ | .Address, _ | .Signer, _ => ⟨_, rfl⟩
  | .Vector sign, h | .Reference sign, h | .MutableReference sign, h => by
    rw [InScope] at h
    obtain ⟨t, ht⟩ := extractTypeSignature_isSome h
    exact ⟨_, Option.map_eq_some_iff.mpr ⟨t, ht, rfl⟩⟩
  | .Struct index, h => by
    rw [InScope] at h
    simp only [extractTypeSignature, Generics.extractStructName, List.getElem?_eq_getElem h]
    exact ⟨_, rfl⟩
  | .StructInstantiation index typed, h => by
    rw [InScope] at h
    obtain ⟨ts, hts⟩ := extractTypeSignatures_isSome h.2
    simp only [extractTypeSignature, Generics.extractStructName, List.getElem?_eq_getElem h.1, hts]
    exact ⟨_, rfl⟩
  | .TypeParameter index, h => by
    rw [InScope] at h
    simp only [extractTypeSignature, List.getElem?_eq_getElem h]
    exact ⟨_, rfl⟩

theorem extractTypeSignatures_isSome : ∀ {signs : List SignatureToken},
    AllInScope d typeParams.length signs → ∃ ts, extractTypeSignatures d typeParams signs = some ts
  | [], _ => ⟨[], rfl⟩
  | sign :: signs, h => by
    rw [AllInScope] at h
    obtain ⟨t, ht⟩ := extractTypeSignature_isSome h.1
    obtain ⟨ts, hts⟩ := extractTypeSignatures_isSome h.2
    exact ⟨t :: ts, by rw [extractTypeSignatures, ht, hts]; rfl⟩

end
end

theorem extractTypeSignatures_length {d : DeclaredUnit} {typeParams : List Generic}
    {signs : List SignatureToken} {ts : List Generics.FType}
    (h : extractTypeSignatures d typeParams signs = some ts) : ts.length = signs.length := by
  induction signs generalizing ts with
  | nil =>
    cases h
    rfl
  | cons sign signs ih =>
    obtain ⟨t, -, h⟩ := Option.bind_eq_some_iff.mp h
    obtain ⟨us, hus, rfl⟩ := Option.map_eq_some_iff.mp h
    rw [List.length_cons, List.length_cons, ih hus]

/-- What reading a unit has checked of a body whose variables have the types `sign`. -/
structure BodyUnit.Loaded (u : BodyUnit) (code : CodeUnit) (params : ℕ) (typeParams : List Generic)
    (sign : List SignatureToken) : Prop where
  locals : u.signatures[code.locals]? = some sign
  inScope : AllInScope u.declared typeParams.length sign
  arguments : ∀ opcode ∈ code.code, ∀ index ∈ opcode.signature u.tables,
    ∃ sign', u.signatures[index]? = some sign' ∧ AllInScope u.declared typeParams.length sign'
  inBounds : ∀ retLen, (u.function code retLen params typeParams sign.length).Loadable

section
variable {u : BodyUnit} {code : CodeUnit} {params : ℕ} {typeParams : List Generic}
  {sign : List SignatureToken}

theorem extractSignature_ok {index : ℕ} (hsign : u.signatures[index]? = some sign)
    (hscope : AllInScope u.declared typeParams.length sign) :
    ∃ types, u.extractSignature typeParams index = .ok types ∧ types.length = sign.length := by
  obtain ⟨types, htypes⟩ := extractTypeSignatures_isSome hscope
  refine ⟨types, ?_, extractTypeSignatures_length htypes⟩
  unfold BodyUnit.extractSignature
  rw [hsign, Option.bind_some, htypes]

/-- All signatures are extracted, so that only the translation can fail. -/
theorem body_new_eq (h : u.Loaded code params typeParams sign) (retLen : ℕ) :
    ∃ make : Translator → Body, Body.new u code retLen params typeParams =
      translate (u.function code retLen params typeParams sign.length) (code.code.length + 1)
        (bodyTranslator (u.function code retLen params typeParams sign.length)) >>= fun t =>
          .ok (make t) := by
  obtain ⟨varTypes, hvars, hlength⟩ := extractSignature_ok h.locals h.inScope
  obtain ⟨_, hall⟩ : ∃ types, (code.code.filterMap (Bytecode.signature u.tables)).mapM
      (u.extractSignature typeParams) = .ok types := by
    refine Collect.exists_mapM_eq_ok.mpr fun index hindex => ?_
    obtain ⟨opcode, hopcode, hsignature⟩ := List.mem_filterMap.mp hindex
    obtain ⟨sign', hsign, hscope⟩ := h.arguments opcode hopcode index hsignature
    obtain ⟨types, htypes, -⟩ := extractSignature_ok hsign hscope
    exact ⟨types, htypes⟩
  refine ⟨fun t => ⟨.mk t.expressions false,
    (u.function code retLen params typeParams sign.length).locals, varTypes, t.used⟩, ?_⟩
  unfold Body.new
  rw [hvars, hall, ← hlength]
  rfl

end

/-- A body is made of everything that is loaded, unless it is not laid out: then there is a
panic. -/
theorem body_made_iff (u : BodyUnit) (code : CodeUnit) (retLen params : ℕ)
    (typeParams : List Generic) (sign : List SignatureToken)
    (h : u.Loaded code params typeParams sign) :
    ((∃ body, Body.new u code retLen params typeParams = .ok body) ↔
      (u.function code retLen params typeParams sign.length).LaidOut) ∧
    (¬(u.function code retLen params typeParams sign.length).LaidOut →
      Body.new u code retLen params typeParams = .error .panic) := by
  obtain ⟨make, hnew⟩ := body_new_eq h retLen
  obtain ⟨hiff, hpanic⟩ := translate_iff_laidOut (h.inBounds retLen)
  rw [hnew]
  constructor
  · rw [← hiff]
    constructor
    · rintro ⟨body, hbody⟩
      obtain ⟨t, ht, -⟩ := Collect.bind_eq_ok.mp hbody
      exact ⟨t, ht⟩
    · rintro ⟨t, ht⟩
      refine ⟨make t, ?_⟩
      rw [show translate _ (code.code.length + 1) _ = _ from ht]
      rfl
  · intro hno
    rw [show translate _ (code.code.length + 1) _ = _ from hpanic hno]
    rfl

def bareUnit : BodyUnit where
  tables := (scriptOf []).unit
  declared := ⟨[], [], [], [], by simp⟩
  signatures := [[]]

theorem bareUnit_loaded {code : List Bytecode}
    (hsign : ∀ opcode ∈ code, opcode.signature bareUnit.tables = none)
    (hload : ∀ retLen, (bareUnit.function ⟨0, code⟩ retLen 0 [] 0).Loadable) :
    bareUnit.Loaded ⟨0, code⟩ 0 [] [] where
  locals := rfl
  inScope := trivial
  arguments opcode hopcode index hindex := by
    rw [hsign opcode hopcode] at hindex
    cases hindex
  inBounds := hload

/-- `if (true) { return }; return` -/
theorem if_body_made :
    ∃ body, Body.new bareUnit ⟨0, [.LdTrue, .BrTrue 3, .Branch 4, .Ret, .Ret]⟩ 0 0 [] = .ok body := by
  refine (body_made_iff bareUnit ⟨0, [.LdTrue, .BrTrue 3, .Branch 4, .Ret, .Ret]⟩ 0 0 [] []
    (bareUnit_loaded (by decide) fun retLen => ?_)).1.mpr (by decide)
  simp [Function.Loadable, BodyUnit.function, Function.InBounds]

theorem jump_back_panics : ¬∀ (u : BodyUnit) (code : CodeUnit) (retLen params : ℕ)
    (typeParams : List Generic) (sign : List SignatureToken),
    u.Loaded code params typeParams sign →
      ∃ body, Body.new u code retLen params typeParams = .ok body := by
  intro h
  have hloaded : bareUnit.Loaded ⟨0, [.LdTrue, .BrTrue 0, .Ret]⟩ 0 [] [] := by
    refine bareUnit_loaded (by decide) fun retLen => ?_
    simp [Function.Loadable, BodyUnit.function, Function.InBounds]
  obtain ⟨body, hbody⟩ := h _ _ 0 _ _ _ hloaded
  have hpanic : Body.new bareUnit ⟨0, [.LdTrue, .BrTrue 0, .Ret]⟩ 0 0 [] = .error .panic := rfl
  rw [hpanic] at hbody
  cases hbody

end MoveTools.Disassembler
