import MoveTools.Disassembler.DeclarationTexts
import MoveTools.Disassembler.Declared

namespace MoveTools.Disassembler.Declarations
open Generics (Kind extractTypeParams)
open Readable

/-- An import is named as its module, or by an alias of it. -/
def Names (name : String) (import_ : Import) : Prop :=
  import_ = .Name name ∨ ∃ k, import_ = .Alias name k

theorem suffix_readable (name : String) (hname : IsName name.toList) :
    Readable Import.suffix (Names name) fun r => ∃ s, r = ';' :: s := by
  have halias : ∀ (k : ℕ) (r : Text), (Import.Alias name k).suffix ++ r =
      ' ' :: ("as ".toList ++ ((name ++ "_" ++ toString k).toList ++ r)) := by
    intro k r
    simp only [Import.suffix, String.toList_append, List.append_assoc]
    rfl
  have hletters : ∀ k : ℕ, IsName (name ++ "_" ++ toString k).toList := by
    intro k
    have hdigits : (toString k).toList = Decimal.display k := Nat.toList_repr
    rw [String.toList_append, String.toList_append, hdigits]
    refine ⟨by simp, fun c hc => ?_⟩
    rw [List.mem_append, List.mem_append] at hc
    rcases hc with (hc | hc) | hc
    · exact hname.2 c hc
    · obtain rfl := List.mem_singleton.mp hc
      exact .inr rfl
    · exact Generics.display_letters hc
  rintro _ (rfl | ⟨k, rfl⟩) _ (rfl | ⟨k', rfl⟩) r ⟨r', rfl⟩ s ⟨s', rfl⟩ heq
  · exact ⟨rfl, heq⟩
  · rw [halias] at heq
    cases heq
  · rw [halias] at heq
    cases heq
  · rw [halias, halias] at heq
    obtain ⟨hsame, hrest⟩ := name_readable (hletters k) (hletters k') (stops_cons.mpr (by decide))
      (stops_cons.mpr (by decide)) (List.append_cancel_left (List.cons.inj heq).2)
    obtain rfl := (Imports.alias_injective (String.toList_inj.mp hsame)).2
    exact ⟨rfl, hrest⟩

theorem address_readable : Readable displayAddress (fun _ => True) (Stops IsLetter) := by
  refine word.comap (fun a _ b _ h => Hex.encodeLower_bytes_injective h) fun a _ c hc => ?_
  exact .inl (Hex.isAlphanum_of_isHex (Hex.isHex_of_isLower (Hex.isLower_encodeLower hc)))

theorem use_readable : Readable (Imports.encodeUse INDENT)
    (fun x => IsName x.1.toList ∧ Names x.1 x.2.2) fun _ => True := by
  have hname : Readable (fun x : String × Import => x.1.toList ++ x.2.suffix)
      (fun x => IsName x.1.toList ∧ Names x.1 x.2) fun r => ∃ s, r = ';' :: s := by
    refine string_readable.seq (fun name hname => suffix_readable name hname)
      fun name import_ r _ himport hr => ?_
    obtain ⟨s, rfl⟩ := hr
    rcases himport with rfl | ⟨k, rfl⟩
    · exact stops_cons.mpr (by decide)
    · exact stops_cons.mpr (by decide)
  have haddress := (address_readable.seq (fun _ _ => hname.tag "::".toList)
    fun _ _ _ _ _ _ => stops_cons.mpr (by decide)).tag (spaces INDENT ++ "use 0x".toList)
  have hline := (haddress.closed ";\n".toList fun r => ⟨_, rfl⟩).comap
    (Q := fun x : String × AccountAddress × Import => IsName x.1.toList ∧ Names x.1 x.2.2)
    (f := fun x => (x.2.1, x.1, x.2.2)) (fun a _ b _ h => by
      obtain ⟨name, address, import_⟩ := a
      cases h
      rfl) fun x hx => ⟨trivial, hx⟩
  intro a ha b hb r hr s hs heq
  refine hline ha hb hr hs ?_
  simpa only [Imports.encodeUse, List.append_assoc] using heq

theorem uses_readable : Readable (fun entries : List (String × AccountAddress × Import) =>
    entries.flatMap (Imports.encodeUse INDENT))
    (fun entries => ∀ x ∈ entries, IsName x.1.toList ∧ Names x.1 x.2.2)
    fun r => ∃ s, r = '\n' :: s := by
  refine use_readable.many (fun _ _ _ _ => trivial) fun x r s _ hs heq => ?_
  obtain ⟨t, rfl⟩ := hs
  cases heq

def Interface.imported (i : Interface) : List Import := i.imports.entries.map fun x => x.2.2

structure Interface.Clear (i : Interface) : Prop where
  name : IsName i.name.toList
  uses : ∀ x ∈ i.imports.entries, IsName x.1.toList ∧ Names x.1 x.2.2
  imports : ClearImports i.imported
  structs : ∀ s ∈ i.structs, s.In i.imported
  functions : ∀ f ∈ i.functions, f.In i.imported

/-- Where a list of structs ends: a function follows, or the end of the module. -/
def EndsStructs (r : Text) : Prop :=
  (∃ s, r = '\x7d' :: s) ∨ ∃ (f : FunctionsDef) (s : Text), r = f.encode INDENT ++ s

theorem struct_ne_function (s : StructDef) (f : FunctionsDef) (r r' : Text) :
    s.encode INDENT ++ r ≠ f.encode INDENT ++ r' := by
  intro heq
  simp only [StructDef.encode, FunctionsDef.encode, List.append_assoc] at heq
  replace heq := List.append_cancel_left heq
  have hnative : "native struct".toList = "native ".toList ++ "struct".toList := by decide
  cases hr : s.isNominalResource <;> cases hn : s.isNative <;> cases hfn : f.isNative <;>
    cases hfp : f.isPublic <;>
    simp only [nominalName, hr, hn, hfn, hfp, if_true, if_false, Bool.false_eq_true, hnative,
      List.append_assoc] at heq
  all_goals cases heq

theorem structs_readable {imports : List Import} (hi : ClearImports imports) :
    Readable (fun l : List StructDef => l.flatMap fun s => s.encode INDENT ++ "\n\n".toList)
      (fun l => ∀ s ∈ l, s.In imports) EndsStructs := by
  have hline := (struct_readable hi INDENT).closed "\n\n".toList fun _ => trivial
  refine hline.many (fun _ _ _ _ => trivial) fun s r r' _ hr heq => ?_
  rw [List.append_assoc] at heq
  rcases hr with ⟨t, rfl⟩ | ⟨f, t, rfl⟩
  · cases heq
  · exact struct_ne_function s f _ t heq

theorem functions_readable {imports : List Import} (hi : ClearImports imports) :
    Readable (fun l : List FunctionsDef => l.flatMap fun f => f.encode INDENT ++ "\n\n".toList)
      (fun l => ∀ f ∈ l, f.In imports) fun r => ∃ s, r = '\x7d' :: s := by
  have hline := (function_readable hi INDENT).closed "\n\n".toList fun _ => trivial
  refine hline.many (fun _ _ _ _ => trivial) fun f r r' _ hr heq => ?_
  obtain ⟨t, rfl⟩ := hr
  cases heq

theorem interface_encode (i : Interface) : i.encode = "module ".toList ++ (i.name.toList ++
    (" \x7b\n".toList ++ (i.imports.entries.flatMap (Imports.encodeUse INDENT) ++ ("\n".toList ++
      (i.structs.flatMap (fun s => s.encode INDENT ++ "\n\n".toList) ++
        (i.functions.flatMap (fun f => f.encode INDENT ++ "\n\n".toList) ++
          "\x7d\n".toList)))))) := by
  have hassoc : ∀ a b c d e f g h : Text, a ++ b ++ c ++ d ++ e ++ f ++ g ++ h =
      a ++ (b ++ (c ++ (d ++ (e ++ (f ++ (g ++ h)))))) := by
    intro a b c d e f g h
    simp only [List.append_assoc]
  unfold Interface.encode
  rw [hassoc]
  rfl

theorem end_cons : "\x7d\n".toList = '\x7d' :: "\n".toList := by decide

theorem functions_end (l : List FunctionsDef) : EndsStructs
    (l.flatMap (fun f => f.encode INDENT ++ "\n\n".toList) ++ "\x7d\n".toList) := by
  cases l with
  | nil => exact .inl ⟨"\n".toList, end_cons⟩
  | cons f l =>
    refine .inr ⟨f, "\n\n".toList ++ (l.flatMap (fun f => f.encode INDENT ++ "\n\n".toList) ++
      "\x7d\n".toList), ?_⟩
    rw [List.flatMap_cons, List.append_assoc, List.append_assoc]

/-- Nothing of a printed module is lost: it shows its name, its uses and all declarations. -/
theorem interface_text (i i' : Interface) (hi : i.Clear) (hi' : i'.Clear)
    (h : i.encode = i'.encode) :
    i.name = i'.name ∧ i.imports.entries = i'.imports.entries ∧ i.structs = i'.structs ∧
      i.functions = i'.functions := by
  have hopen : ∀ r : Text, Stops IsLetter (" \x7b\n".toList ++ r) :=
    fun r => stops_cons.mpr (by decide)
  have hline : ∀ r : Text, ∃ s, "\n".toList ++ r = '\n' :: s := fun r => ⟨r, rfl⟩
  rw [interface_encode, interface_encode] at h
  obtain ⟨hname, hbody⟩ := string_readable hi.name hi'.name (hopen _) (hopen _)
    (List.append_cancel_left h)
  obtain ⟨huses, hrest⟩ := uses_readable hi.uses hi'.uses (hline _) (hline _)
    (List.append_cancel_left hbody)
  have himported : i'.imported = i.imported := by
    rw [Interface.imported, Interface.imported, huses]
  have hstructs' := hi'.structs
  have hfunctions' := hi'.functions
  rw [himported] at hstructs' hfunctions'
  obtain ⟨hstructs, hlast⟩ := structs_readable hi.imports hi.structs hstructs'
    (functions_end _) (functions_end _) (List.append_cancel_left hrest)
  obtain ⟨hfunctions, -⟩ := functions_readable hi.imports hi.functions hfunctions' ⟨_, end_cons⟩
    ⟨_, end_cons⟩ hlast
  exact ⟨hname, huses, hstructs, hfunctions⟩

/-- What was declared has names, and types whose structs are instantiated as declared. -/
def StructDefinition.Named {n : ℕ} (d : StructDefinition n) : Prop :=
  ∀ fields ∈ d.fieldInformation, ∀ x ∈ fields, IsName x.1.toList ∧ Generics.Instantiated x.2

structure FunctionDefinition.Named (d : FunctionDefinition) : Prop where
  name : IsName d.name.toList
  returns : Generics.AllInstantiated d.returns
  parameters : Generics.AllInstantiated d.parameters

def CompiledInterface.typeParameters (m : CompiledInterface)
    (d : StructDefinition m.structHandles.length) : List Kind :=
  (m.structHandles.get d.structHandle).typeParameters

/-- The names of the module can be told from each other wherever types are written: those of the
uses, those of the type parameters of all declarations, and those of its own structs. -/
structure CompiledInterface.Clear (m : CompiledInterface) (random : ℕ) : Prop where
  name : IsName (m.moduleHandles.get m.selfModuleHandle).name.toList
  modules : ∀ h ∈ Imports.imported m.selfHandle m.moduleHandles, IsName h.name.toList
  unambiguous : Imports.Unambiguous m.selfHandle m.moduleHandles
  identifiers : ∀ s ∈ m.identifiers, IsName s.toList
  own_free : ∀ h ∈ m.structHandles, (m.structRef h).module = none →
    h.name.toList ∉ Generics.reserved
  structs : ∀ d ∈ m.structDefs, d.Named ∧ Generics.Fresh m.declared (m.typeParameters d) random
  functions : ∀ d ∈ m.functionDefs, d.Named ∧ Generics.Fresh m.declared d.typeParameters random

section
variable {m : CompiledInterface} {random : ℕ} {i : Interface}

theorem entry_names {x : String × AccountAddress × Import}
    (hx : x ∈ m.imports.entries) :
    (∃ h ∈ Imports.imported m.selfHandle m.moduleHandles, h.name = x.1) ∧ Names x.1 x.2.2 := by
  have hm := built_imports m
  obtain ⟨name, address, import_⟩ := x
  obtain ⟨k, haddress, rfl⟩ := hm.exists_index hx
  refine ⟨⟨_, Imports.mem_addressesOf.mp (List.mem_of_getElem? haddress), rfl⟩, ?_⟩
  by_cases hk : k = 0
  · exact .inl (if_pos hk)
  · exact .inr ⟨k, if_neg hk⟩

theorem names_named {name : String} {import_ : Import} (hname : IsName name.toList)
    (h : Names name import_) : IsName import_.encode := by
  rcases h with rfl | ⟨k, rfl⟩
  · exact hname
  · have hdigits : (toString k).toList = Decimal.display k := Nat.toList_repr
    rw [Import.encode, hdigits]
    refine ⟨by simp, fun c hc => ?_⟩
    rw [List.mem_append, List.mem_append] at hc
    rcases hc with (hc | hc) | hc
    · exact hname.2 c hc
    · obtain rfl := List.mem_singleton.mp hc
      exact .inr rfl
    · exact Generics.display_letters hc

theorem printed_toList (import_ : Import) : import_.printed.toList = import_.encode := by
  cases import_ with
  | Name name => rfl
  | Alias name id => rw [Import.printed, String.toList_append, String.toList_append, Import.encode]

theorem imports_clear (h : m.Clear random) :
    ClearImports (m.imports.entries.map fun x => x.2.2) := by
  have hm := built_imports m
  constructor
  · intro import_ hmem
    obtain ⟨x, hx, rfl⟩ := List.mem_map.mp hmem
    obtain ⟨⟨handle, hhandle, hname⟩, hnames⟩ := entry_names hx
    exact names_named (hname ▸ h.modules handle hhandle) hnames
  · intro import_ hmem import_' hmem' heq
    obtain ⟨x, hx, rfl⟩ := List.mem_map.mp hmem
    obtain ⟨x', hx', rfl⟩ := List.mem_map.mp hmem'
    have hintroduced : Imports.introduced x = Imports.introduced x' := by
      rw [hm.introduced_eq hx, hm.introduced_eq hx']
      apply String.toList_inj.mp
      rw [printed_toList, printed_toList]
      exact heq
    rw [List.inj_on_of_nodup_map h.unambiguous.distinct hx hx' hintroduced]

theorem structName_in (h : m.Clear random) {params : List Kind}
    (hfresh : Generics.Fresh m.declared params random) (index : ℕ) (name : Generics.FullStructName)
    (hname : Generics.extractStructName m.declared index = some name) :
    name.In ⟨m.imports.entries.map fun x => x.2.2,
      extractTypeParams params (Generics.new m.identifiers random)⟩ := by
  have hm := built_imports m
  have hnamed := Generics.extractStructName_named hname
  obtain ⟨handle, hhandle, hfull⟩ := extractStructName_handle hname
  obtain ⟨name, import_⟩ := name
  obtain ⟨rfl, himport⟩ := Generics.FullStructName.mk.inj hfull
  refine ⟨h.identifiers _ hnamed, ?_⟩
  cases import_ with
  | some import_ =>
    have hentry := himport.symm
    change Imports.getImport ⟨m.imports.imports⟩ _ _ = _ at hentry
    rw [hm.getImport_eq, ← hm.mem_entries] at hentry
    exact List.mem_map.mpr ⟨_, hentry, rfl⟩
  | none =>
    have hown := h.own_free handle (List.mem_of_getElem? hhandle)
      ((getImport_eq_none_iff _).mp himport.symm)
    exact ⟨hown, fun g hg heq => hfresh.not_identifier _ hnamed (List.mem_map.mpr ⟨g, hg, heq.symm⟩)⟩

theorem struct_new_in (h : m.Clear random) {d : StructDefinition m.structHandles.length}
    (hd : d.Named) (hfresh : Generics.Fresh m.declared (m.typeParameters d) random) {s : StructDef}
    (hs : StructDef.new m (Generics.new m.identifiers random) d = some s) :
    s.In (m.imports.entries.map fun x => x.2.2) := by
  have hname : IsName (m.structHandles.get d.structHandle).name.toList :=
    h.identifiers _ (m.named _ (List.get_mem m.structHandles d.structHandle))
  unfold StructDef.new at hs
  cases hinfo : d.fieldInformation with
  | none =>
    rw [hinfo] at hs
    obtain rfl := Option.some.inj hs
    exact ⟨hname, ⟨_, _, _, rfl⟩, fun f hf => by cases hf⟩
  | some declared =>
    rw [hinfo] at hs
    obtain ⟨fields, hfields, rfl⟩ := Option.map_eq_some_iff.mp hs
    refine ⟨hname, ⟨_, _, _, rfl⟩, fun f hf => ?_⟩
    obtain ⟨x, hx, hfield⟩ := Collect.mem_mapM hfields hf
    obtain ⟨t, ht, rfl⟩ := Option.map_eq_some_iff.mp hfield
    obtain ⟨hfieldName, hinst⟩ := hd declared hinfo x hx
    exact ⟨hfieldName, Generics.extracted_in (structName_in h hfresh) hinst ht⟩

theorem function_new_in (h : m.Clear random) {d : FunctionDefinition} (hd : d.Named)
    (hfresh : Generics.Fresh m.declared d.typeParameters random) {f : FunctionsDef}
    (hf : FunctionsDef.new m (Generics.new m.identifiers random) d = some f) :
    f.In (m.imports.entries.map fun x => x.2.2) := by
  obtain ⟨ret, hret, hf⟩ := Option.bind_eq_some_iff.mp hf
  obtain ⟨params, hparams, hf⟩ := Option.bind_eq_some_iff.mp hf
  obtain rfl := Option.some.inj hf
  have hin := structName_in h hfresh
  have hretIn := (Generics.allIn_iff _).mp (Generics.allExtracted_in hin hd.returns hret)
  have hparamsIn := (Generics.allIn_iff _).mp (Generics.allExtracted_in hin hd.parameters hparams)
  refine ⟨hd.name, ⟨_, _, _, rfl⟩, fun p hp => ?_, hretIn⟩
  obtain ⟨x, hx, rfl⟩ := List.mem_map.mp hp
  exact ⟨rfl, hparamsIn x.1 (List.fst_mem_of_mem_zipIdx hx)⟩

theorem interface_new_clear (h : m.Clear random) (hi : Interface.new m random = some i) :
    i.Clear := by
  obtain ⟨structs, hstructs, hi⟩ := Option.bind_eq_some_iff.mp hi
  obtain ⟨functions, hfunctions, hi⟩ := Option.bind_eq_some_iff.mp hi
  obtain rfl := Option.some.inj hi
  refine ⟨h.name, fun x hx => ?_, imports_clear h, fun s hs => ?_, fun f hf => ?_⟩
  · obtain ⟨⟨handle, hhandle, hname⟩, hnames⟩ := entry_names (m := m) hx
    exact ⟨hname ▸ h.modules handle hhandle, hnames⟩
  · obtain ⟨d, hd, hnew⟩ := Collect.mem_mapM hstructs hs
    exact struct_new_in h (h.structs d hd).1 (h.structs d hd).2 hnew
  · obtain ⟨d, hd, hnew⟩ := Collect.mem_mapM hfunctions hf
    exact function_new_in h (h.functions d hd).1 (h.functions d hd).2 hnew

end

/-- Modules that declare different things are printed differently. -/
theorem interfaces_differ {m m' : CompiledInterface} {random random' : ℕ} (h : m.Clear random)
    (h' : m'.Clear random') {i i' : Interface} (hi : Interface.new m random = some i)
    (hi' : Interface.new m' random' = some i') (hne : m.declarations ≠ m'.declarations) :
    i.encode ≠ i'.encode := by
  intro heq
  obtain ⟨hname, huses, hstructs, hfunctions⟩ :=
    interface_text i i' (interface_new_clear h hi) (interface_new_clear h' hi') heq
  rw [← interface_shown h.unambiguous.distinct hi, ← interface_shown h'.unambiguous.distinct hi'] at hne
  apply hne
  rw [Interface.shown, Interface.shown, hname, huses, hstructs, hfunctions]

/-- `module M { struct S { x: u64 } public fun f(_arg: parameter): u64 { abort 1 } }` -/
def readingModule (parameter : Generics.SignatureToken) : CompiledInterface where
  moduleHandles := [⟨[1], "M"⟩]
  selfModuleHandle := 0
  identifiers := ["M", "S", "x", "f"]
  structHandles := [⟨0, "S", false, []⟩]
  structDefs := [⟨0, some [("x", .U64)]⟩]
  functionDefs := [⟨true, false, "f", [], [.U64], [parameter]⟩]
  named := by decide

theorem readingModule_clear {parameter : Generics.SignatureToken}
    (h : Generics.Instantiated parameter) : (readingModule parameter).Clear 0 where
  name := by
    change IsName "M".toList
    decide
  modules h hmem := by cases hmem
  unambiguous := ⟨.nil, fun h _ import_ himport => by cases himport⟩
  identifiers := by
    change ∀ s ∈ ["M", "S", "x", "f"], IsName s.toList
    decide
  own_free h hmem _ := by
    obtain rfl := List.mem_singleton.mp hmem
    change "S".toList ∉ Generics.reserved
    decide
  structs d hd := by
    obtain rfl := List.mem_singleton.mp hd
    have hfield : IsName "x".toList := by decide
    refine ⟨fun fields hfields x hx => ?_, Generics.fresh_iff.mpr fun _ _ h => by cases h⟩
    obtain rfl := Option.some.inj hfields
    obtain rfl := List.mem_singleton.mp hx
    exact ⟨hfield, trivial⟩
  functions d hd := by
    obtain rfl := List.mem_singleton.mp hd
    have hname : IsName "f".toList := by decide
    refine ⟨⟨hname, ?_, ?_⟩, Generics.fresh_iff.mpr fun _ _ h => by cases h⟩
    · exact ⟨trivial, trivial⟩
    · exact ⟨h, trivial⟩

/-- `&S` and `&mut S` -/
theorem interfaces_differ_mut : ∃ i i',
    Interface.new (readingModule (.Reference (.Struct 0))) 0 = some i ∧
      Interface.new (readingModule (.MutableReference (.Struct 0))) 0 = some i' ∧
        i.encode ≠ i'.encode := by
  obtain ⟨i, hi⟩ : ∃ i, Interface.new (readingModule (.Reference (.Struct 0))) 0 = some i := ⟨_, rfl⟩
  obtain ⟨i', hi'⟩ : ∃ i', Interface.new (readingModule (.MutableReference (.Struct 0))) 0 = some i' :=
    ⟨_, rfl⟩
  have hinst : Generics.Instantiated (.Reference (.Struct 0)) ∧
      Generics.Instantiated (.MutableReference (.Struct 0)) := by
    simp [Generics.Instantiated]
  refine ⟨i, i', hi, hi', interfaces_differ (readingModule_clear hinst.1)
    (readingModule_clear hinst.2) hi hi' fun heq => ?_⟩
  have hparameters := congrArg (fun d => d.functions.map DeclaredFunction.parameters) heq
  simp [CompiledInterface.declarations, CompiledInterface.functionOf, readingModule,
    CompiledInterface.typesOf, CompiledInterface.typeOf] at hparameters

end MoveTools.Disassembler.Declarations
