import MoveTools.Disassembler.TypeTexts

namespace MoveTools.Disassembler.Generics
open Readable

def DeclaredUnit.scope (u : DeclaredUnit) (params : List Kind) (random : ℕ) : Scope where
  imports := u.structHandles.filterMap StructHandle.import_
  typeParams := extractTypeParams params (new u.identifiers random)

def StructHandle.fullName (h : StructHandle) : FullStructName := ⟨h.name, h.import_⟩

/-- The names of a unit in a declaration: no two structs share a handle, the imports and the type
parameters are told from all else by their names, and the unit's own structs are not called as the
types that the language has. -/
structure DeclaredUnit.Clear (u : DeclaredUnit) (params : List Kind) (random : ℕ) : Prop where
  identifiers_named : ∀ s ∈ u.identifiers, IsName s.toList
  imports_named : ∀ h ∈ u.structHandles, ∀ i ∈ h.import_, IsName i.encode
  imports_injOn : Set.InjOn Import.encode {i | ∃ h ∈ u.structHandles, h.import_ = some i}
  own_free : ∀ h ∈ u.structHandles, h.import_ = none → h.name.toList ∉ reserved
  fresh : Fresh u params random
  nodup : (u.structHandles.map StructHandle.fullName).Nodup

theorem prefix_upper : ∀ p ∈ GENERICS_PREFIX,
    p.toList ≠ [] ∧ ∀ c ∈ p.toList, IsLetter c ∧ c.isUpper := by
  decide

theorem letter_of_digit {c : Char} (h : c.isDigit) : IsLetter c := by
  refine .inl ?_
  rw [Char.isAlphanum, h, Bool.or_true]

theorem display_letters {n : ℕ} {c : Char} (h : c ∈ Decimal.display n) : IsLetter c :=
  letter_of_digit (Decimal.isDigit_of_mem_display h)

theorem new_upper (identifiers : List String) (random : ℕ) :
    ∃ c rest, (new identifiers random).encode = c :: rest ∧ c.isUpper ∧
      ∀ x ∈ c :: rest, IsLetter x := by
  unfold new
  cases h : GENERICS_PREFIX.find? fun p => !identifiers.contains p with
  | some p =>
    obtain ⟨hne, hletters⟩ := prefix_upper p (List.mem_of_find?_eq_some h)
    obtain ⟨c, rest, hp⟩ := List.exists_cons_of_ne_nil hne
    rw [hp] at hletters
    exact ⟨c, rest, hp, (hletters c List.mem_cons_self).2, fun x hx => (hletters x hx).1⟩
  | none =>
    have htype : ∀ x ∈ "TYPE".toList, IsLetter x := by decide
    refine ⟨'T', "YPE".toList ++ Decimal.display random, rfl, by decide, fun x hx => ?_⟩
    rw [← List.cons_append, List.mem_append] at hx
    rcases hx with hx | hx
    · exact htype x hx
    · exact display_letters hx

theorem asName_upper {identifiers : List String} {random : ℕ} {params : List Kind} {g : Generic}
    (hg : g ∈ extractTypeParams params (new identifiers random)) :
    ∃ c rest, g.asName = c :: rest ∧ c.isUpper ∧ ∀ x ∈ c :: rest, IsLetter x := by
  obtain ⟨x, -, rfl⟩ := List.mem_map.mp hg
  obtain ⟨c, rest, hprefix, hupper, hletters⟩ := new_upper identifiers random
  refine ⟨c, rest ++ if x.2 ≠ 0 then Decimal.display x.2 else [], ?_, hupper, fun y hy => ?_⟩
  · rw [Generic.asName, hprefix, List.cons_append]
  · rw [← List.cons_append, List.mem_append] at hy
    rcases hy with hy | hy
    · exact hletters y hy
    · split at hy
      · exact display_letters hy
      · cases hy

theorem reserved_lower : ∀ w ∈ reserved, ∀ c ∈ w.head?, ¬c.isUpper := by
  have hall : ∀ w ∈ reserved, w.head?.all fun c => !c.isUpper := by decide
  intro w hw c hc
  have h := hall w hw
  rw [Option.mem_def.mp hc] at h
  simpa using h

section
variable {u : DeclaredUnit} {params : List Kind} {random : ℕ}

theorem scope_clear (h : u.Clear params random) : (u.scope params random).Clear where
  imports_named i hi := by
    obtain ⟨handle, hhandle, hi⟩ := List.mem_filterMap.mp hi
    exact h.imports_named handle hhandle i hi
  imports_injOn i hi j hj heq := by
    obtain ⟨handle, hhandle, hi⟩ := List.mem_filterMap.mp hi
    obtain ⟨handle', hhandle', hj⟩ := List.mem_filterMap.mp hj
    exact h.imports_injOn ⟨handle, hhandle, hi⟩ ⟨handle', hhandle', hj⟩ heq
  typeParams_named g hg := by
    obtain ⟨c, rest, hname, -, hletters⟩ := asName_upper hg
    rw [hname]
    exact ⟨List.cons_ne_nil c rest, hletters⟩
  typeParams_injOn g hg g' hg' heq :=
    List.inj_on_of_nodup_map (names_nodup (u := u) params random) hg hg' heq
  typeParams_free g hg hreserved := by
    obtain ⟨c, rest, hname, hupper, -⟩ := asName_upper hg
    rw [hname] at hreserved
    exact reserved_lower _ hreserved c rfl hupper

mutual

/-- Type arguments are only written where there are any. -/
def Instantiated : SignatureToken → Prop
  | .Bool | .U8 | .U64 | .U128 | .Address | .Signer | .Struct _ | .TypeParameter _ => True
  | .Vector t | .Reference t | .MutableReference t => Instantiated t
  | .StructInstantiation _ typed => typed ≠ [] ∧ AllInstantiated typed

def AllInstantiated : List SignatureToken → Prop
  | [] => True
  | t :: ts => Instantiated t ∧ AllInstantiated ts

end

theorem extractStructName_eq {index : ℕ} {name : FullStructName}
    (h : extractStructName u index = some name) :
    (u.structHandles.map StructHandle.fullName)[index]? = some name := by
  rw [List.getElem?_map]
  exact h

theorem structName_in (h : u.Clear params random) {index : ℕ} {name : FullStructName}
    (hname : extractStructName u index = some name) : name.In (u.scope params random) := by
  have hnamed := extractStructName_named hname
  obtain ⟨handle, hhandle, rfl⟩ := Option.map_eq_some_iff.mp hname
  have hmem := List.mem_of_getElem? hhandle
  refine ⟨h.identifiers_named _ hnamed, ?_⟩
  cases himport : handle.import_ with
  | some i => exact List.mem_filterMap.mpr ⟨handle, hmem, himport⟩
  | none =>
    refine ⟨h.own_free handle hmem himport, fun g hg heq => ?_⟩
    exact h.fresh.not_identifier _ hnamed (List.mem_map.mpr ⟨g, hg, heq.symm⟩)

mutual

theorem extracted_in {S : Scope} (h : ∀ index name, extractStructName u index = some name →
    name.In S) : ∀ {sign : SignatureToken} {t : FType},
    Instantiated sign → extractTypeSignature u S.typeParams sign = some t → t.In S
  | .U8, t, _, ht | .Bool, t, _, ht | .U64, t, _, ht | .U128, t, _, ht | .Address, t, _, ht
  | .Signer, t, _, ht => by
    cases ht
    rw [FType.In]
    decide
  | .Vector sign, t, hi, ht | .Reference sign, t, hi, ht | .MutableReference sign, t, hi, ht => by
    obtain ⟨inner, hinner, rfl⟩ := Option.map_eq_some_iff.mp ht
    rw [Instantiated] at hi
    rw [FType.In]
    exact extracted_in h hi hinner
  | .Struct index, t, _, ht => by
    obtain ⟨name, hname, rfl⟩ := Option.map_eq_some_iff.mp ht
    rw [FType.In]
    exact h index name hname
  | .StructInstantiation index typed, t, hi, ht => by
    obtain ⟨name, hname, ht⟩ := Option.bind_eq_some_iff.mp ht
    obtain ⟨ts, hts, rfl⟩ := Option.map_eq_some_iff.mp ht
    rw [Instantiated] at hi
    rw [FType.In]
    refine ⟨h index name hname, fun hnil => ?_, allExtracted_in h hi.2 hts⟩
    have hlength := extractTypeSignatures_length hts
    rw [hnil, List.length_nil] at hlength
    exact hi.1 (List.length_eq_zero_iff.mp hlength.symm)
  | .TypeParameter index, t, _, ht => by
    obtain ⟨g, hg, rfl⟩ := Option.map_eq_some_iff.mp ht
    rw [FType.In]
    exact List.mem_of_getElem? hg

theorem allExtracted_in {S : Scope} (h : ∀ index name, extractStructName u index = some name →
    name.In S) : ∀ {signs : List SignatureToken} {ts : List FType},
    AllInstantiated signs → extractTypeSignatures u S.typeParams signs = some ts → AllIn S ts
  | [], ts, _, hts => by
    cases hts
    trivial
  | sign :: signs, ts, hi, hts => by
    obtain ⟨t, ht, hts⟩ := Option.bind_eq_some_iff.mp hts
    obtain ⟨us, hus, rfl⟩ := Option.map_eq_some_iff.mp hts
    rw [AllInstantiated] at hi
    exact ⟨extracted_in h hi.1 ht, allExtracted_in h hi.2 hus⟩

end

def primitiveToken (name : Text) : SignatureToken :=
  if name = "u8".toList then .U8
  else if name = "bool".toList then .Bool
  else if name = "u64".toList then .U64
  else if name = "u128".toList then .U128
  else if name = "address".toList then .Address
  else .Signer

mutual

/-- The signature that a type was made from. -/
def FType.token (u : DeclaredUnit) : FType → SignatureToken
  | .Generic g => .TypeParameter g.index
  | .Primitive name => primitiveToken name
  | .Ref t => .Reference (t.token u)
  | .RefMut t => .MutableReference (t.token u)
  | .Vec t => .Vector (t.token u)
  | .Struct name => .Struct ((u.structHandles.map StructHandle.fullName).idxOf name)
  | .StructInst name generics =>
    .StructInstantiation ((u.structHandles.map StructHandle.fullName).idxOf name)
      (tokensOf u generics)

def tokensOf (u : DeclaredUnit) : List FType → List SignatureToken
  | [] => []
  | t :: ts => t.token u :: tokensOf u ts

end

theorem idxOf_structName (hnodup : (u.structHandles.map StructHandle.fullName).Nodup) {index : ℕ}
    {name : FullStructName} (h : extractStructName u index = some name) :
    (u.structHandles.map StructHandle.fullName).idxOf name = index := by
  obtain ⟨hlt, hget⟩ := List.getElem?_eq_some_iff.mp (extractStructName_eq h)
  rw [← hget]
  exact hnodup.idxOf_getElem index hlt

theorem typeParam_index {index : ℕ} {g : Generic} {generics : GenericPrefix}
    (h : (extractTypeParams params generics)[index]? = some g) : g.index = index := by
  rw [extractTypeParams, List.getElem?_map, Option.map_eq_some_iff] at h
  obtain ⟨x, hx, rfl⟩ := h
  rw [List.getElem?_zipIdx, Option.map_eq_some_iff] at hx
  obtain ⟨kind, -, rfl⟩ := hx
  exact Nat.zero_add index

mutual

theorem token_extracted (hnodup : (u.structHandles.map StructHandle.fullName).Nodup) :
    ∀ {sign : SignatureToken} {t : FType},
      extractTypeSignature u (u.scope params random).typeParams sign = some t → t.token u = sign
  | .U8, t, ht | .Bool, t, ht | .U64, t, ht | .U128, t, ht | .Address, t, ht | .Signer, t, ht => by
    cases ht
    rfl
  | .Vector sign, t, ht | .Reference sign, t, ht | .MutableReference sign, t, ht => by
    obtain ⟨inner, hinner, rfl⟩ := Option.map_eq_some_iff.mp ht
    rw [FType.token, token_extracted hnodup hinner]
  | .Struct index, t, ht => by
    obtain ⟨name, hname, rfl⟩ := Option.map_eq_some_iff.mp ht
    rw [FType.token, idxOf_structName hnodup hname]
  | .StructInstantiation index typed, t, ht => by
    obtain ⟨name, hname, ht⟩ := Option.bind_eq_some_iff.mp ht
    obtain ⟨ts, hts, rfl⟩ := Option.map_eq_some_iff.mp ht
    rw [FType.token, idxOf_structName hnodup hname, tokens_extracted hnodup hts]
  | .TypeParameter index, t, ht => by
    obtain ⟨g, hg, rfl⟩ := Option.map_eq_some_iff.mp ht
    rw [FType.token, typeParam_index hg]

theorem tokens_extracted (hnodup : (u.structHandles.map StructHandle.fullName).Nodup) :
    ∀ {signs : List SignatureToken} {ts : List FType},
      extractTypeSignatures u (u.scope params random).typeParams signs = some ts →
        tokensOf u ts = signs
  | [], ts, hts => by
    cases hts
    rfl
  | sign :: signs, ts, hts => by
    obtain ⟨t, ht, hts⟩ := Option.bind_eq_some_iff.mp hts
    obtain ⟨us, hus, rfl⟩ := Option.map_eq_some_iff.mp hts
    rw [tokensOf, token_extracted hnodup ht, tokens_extracted hnodup hus]

end

/-- Where the names of a unit are clear, no two types of a declaration are written alike. -/
theorem type_texts_differ (h : u.Clear params random) {sign sign' : SignatureToken}
    (hi : Instantiated sign) (hi' : Instantiated sign') (hne : sign ≠ sign') {t t' : FType}
    (ht : extractTypeSignature u (u.scope params random).typeParams sign = some t)
    (ht' : extractTypeSignature u (u.scope params random).typeParams sign' = some t') :
    t.encode ≠ t'.encode := by
  intro heq
  have hin : ∀ index name, extractStructName u index = some name →
      name.In (u.scope params random) := fun _ _ hname => structName_in h hname
  have hsame : t = t' := (type_readable (scope_clear h)).injOn stops_nil
    (extracted_in hin hi ht) (extracted_in hin hi' ht') heq
  rw [← token_extracted h.nodup ht, ← token_extracted h.nodup ht', hsame] at hne
  exact hne rfl

end

/-- `use 0x1::T; struct T1<A> {}`, and a function with a type parameter: its letter is `G`. -/
def importingUnit : DeclaredUnit where
  identifiers := ["M", "T", "S", "f"]
  structHandles := [⟨"S", none, [.All]⟩, ⟨"S", some (.Name "T"), []⟩]
  functions := [[.All]]
  structDefs := [0]
  named := by decide

theorem importingUnit_clear : importingUnit.Clear [.All] 0 where
  identifiers_named := by decide
  imports_named := by decide
  imports_injOn := by
    rintro i ⟨h, hmem, hi⟩ j ⟨h', hmem', hj⟩ -
    have himport : ∀ h ∈ importingUnit.structHandles, ∀ i ∈ h.import_, i = .Name "T" := by decide
    rw [himport h hmem i hi, himport h' hmem' j hj]
  own_free := by decide
  fresh := fresh_iff.mpr (by decide)
  nodup := by decide

/-- `vector<S<G>>` and `vector<T::S>` -/
theorem type_texts_differ_import :
    (FType.Vec (.StructInst ⟨"S", none⟩ [.Generic ⟨.SimplePrefix "G", 0, .All⟩])).encode ≠
      (FType.Vec (.Struct ⟨"S", some (.Name "T")⟩)).encode :=
  type_texts_differ importingUnit_clear
    (show Instantiated (.Vector (.StructInstantiation 0 [.TypeParameter 0])) by
      simp [Instantiated, AllInstantiated])
    (show Instantiated (.Vector (.Struct 1)) by simp [Instantiated]) (by simp) rfl rfl

end MoveTools.Disassembler.Generics
