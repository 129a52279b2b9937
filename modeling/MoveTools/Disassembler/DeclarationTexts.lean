import MoveTools.Disassembler.Declarations

namespace MoveTools.Disassembler.Declarations
open Generics (Kind Generic Scope type_readable extractTypeParams)
open Readable

/-- The type parameters of a declaration, with whatever letter. -/
def Declared (typeParams : List Generic) : Prop :=
  ∃ identifiers random params, typeParams = extractTypeParams params (Generics.new identifiers random)

/-- The names that two uses introduce are different. -/
structure ClearImports (imports : List Import) : Prop where
  named : ∀ i ∈ imports, IsName i.encode
  injOn : Set.InjOn Import.encode {i | i ∈ imports}

section
variable (imports : List Import)

structure Field.In (typeParams : List Generic) (f : Field) : Prop where
  name : IsName f.name.toList
  fType : f.fType.In ⟨imports, typeParams⟩

structure StructDef.In (s : StructDef) : Prop where
  name : IsName s.name.toList
  declared : Declared s.typeParams
  fields : ∀ f ∈ s.fields, f.In imports s.typeParams

/-- No parameter is marked, since there is no body that could read it. -/
structure Param.In (typeParams : List Generic) (p : Param) : Prop where
  unused : p.used = false
  fType : p.fType.In ⟨imports, typeParams⟩

structure FunctionsDef.In (f : FunctionsDef) : Prop where
  name : IsName f.name.toList
  declared : Declared f.typeParams
  params : ∀ p ∈ f.params, p.In imports f.typeParams
  ret : ∀ t ∈ f.ret, t.In ⟨imports, f.typeParams⟩

end

theorem scope_clear {imports : List Import} {typeParams : List Generic}
    (hi : ClearImports imports) (ht : Declared typeParams) : Scope.Clear ⟨imports, typeParams⟩ := by
  obtain ⟨identifiers, random, params, rfl⟩ := ht
  refine ⟨hi.named, hi.injOn, fun g hg => ?_, ?_, fun g hg hreserved => ?_⟩
  · obtain ⟨c, rest, hname, -, hletters⟩ := Generics.asName_upper hg
    rw [hname]
    exact ⟨List.cons_ne_nil c rest, hletters⟩
  · exact List.inj_on_of_nodup_map (Generics.names_nodup (u := ⟨identifiers, [], [], [], by simp⟩)
      params random)
  · obtain ⟨c, rest, hname, hupper, -⟩ := Generics.asName_upper hg
    rw [hname] at hreserved
    exact Generics.reserved_lower _ hreserved c rfl hupper

def kindSuffix : Kind → Text
  | .All => []
  | .Resource => ": resource".toList
  | .Copyable => ": copyable".toList

def Separates (r : Text) : Prop := ∀ c ∈ r.head?, ¬IsLetter c ∧ c ≠ ':' ∧ c ≠ '<'

theorem separates_cons {c : Char} {r : Text} (h : ¬IsLetter c ∧ c ≠ ':' ∧ c ≠ '<') :
    Separates (c :: r) := by
  intro d hd
  obtain rfl := Option.some.inj hd
  exact h

theorem kind_readable : Readable kindSuffix (fun _ => True) Separates := by
  have hcolon : ∀ {w r s : Text}, w.head? = some ':' → Separates r → w ++ s ≠ r := by
    rintro w r s hw hr rfl
    refine (hr ':' ?_).2.1 rfl
    rw [List.head?_append, hw]
    rfl
  have hne : ∀ r s : Text, kindSuffix .Resource ++ r ≠ kindSuffix .Copyable ++ s := by
    intro r s heq
    have hlength : (kindSuffix .Resource).length = (kindSuffix .Copyable).length := by decide
    have hsame := (List.append_inj heq hlength).1
    exact absurd hsame (by decide)
  have hresource : (kindSuffix .Resource).head? = some ':' := by decide
  have hcopyable : (kindSuffix .Copyable).head? = some ':' := by decide
  intro a _ b _ r hr s hs heq
  cases a <;> cases b
  case All.All => exact ⟨rfl, heq⟩
  case All.Resource => exact absurd heq.symm (hcolon hresource hr)
  case All.Copyable => exact absurd heq.symm (hcolon hcopyable hr)
  case Resource.All => exact absurd heq (hcolon hresource hs)
  case Copyable.All => exact absurd heq (hcolon hcopyable hs)
  case Resource.Resource | Copyable.Copyable => exact ⟨rfl, List.append_cancel_left heq⟩
  case Resource.Copyable => exact absurd heq (hne r s)
  case Copyable.Resource => exact absurd heq.symm (hne s r)

/-- A type parameter is written as its name and its kind. -/
def paramOf (g : Generic) : Text × Kind := (g.asName, g.kind)

theorem generic_readable : Readable (fun x : Text × Kind => x.1 ++ kindSuffix x.2)
    (fun x => IsName x.1 ∧ True) Separates := by
  refine name_readable.seq (fun _ _ => kind_readable) fun w kind r _ _ hr => ?_
  cases kind with
  | All => exact fun c hc => (hr c hc).1
  | Resource => exact stops_cons.mpr (by decide)
  | Copyable => exact stops_cons.mpr (by decide)

theorem encode_paramOf (g : Generic) : g.encode = (paramOf g).1 ++ kindSuffix (paramOf g).2 := by
  obtain ⟨generics, index, kind⟩ := g
  cases kind <;> rfl

theorem prefix_injective {identifiers identifiers' : List String} {random random' : ℕ}
    (h : (Generics.new identifiers random).encode = (Generics.new identifiers' random').encode) :
    Generics.new identifiers random = Generics.new identifiers' random' := by
  have hshort : ∀ p ∈ Generics.GENERICS_PREFIX, p.toList.length = 1 := by decide
  have hlong : ∀ (p : String) (n : ℕ), p ∈ Generics.GENERICS_PREFIX →
      p.toList ≠ "TYPE".toList ++ Decimal.display n := by
    intro p n hp heq
    have hlength := congrArg List.length heq
    have hfour : "TYPE".toList.length = 4 := rfl
    rw [hshort p hp, List.length_append, hfour] at hlength
    omega
  unfold Generics.new at h ⊢
  cases hp : Generics.GENERICS_PREFIX.find? fun p => !identifiers.contains p with
  | some p =>
    cases hq : Generics.GENERICS_PREFIX.find? fun p => !identifiers'.contains p with
    | some q =>
      rw [hp, hq] at h
      exact congrArg _ (String.toList_inj.mp h)
    | none =>
      rw [hp, hq] at h
      exact absurd h (hlong p random' (List.mem_of_find?_eq_some hp))
  | none =>
    cases hq : Generics.GENERICS_PREFIX.find? fun p => !identifiers'.contains p with
    | some q =>
      rw [hp, hq] at h
      exact absurd h.symm (hlong q random (List.mem_of_find?_eq_some hq))
    | none =>
      rw [hp, hq] at h
      exact congrArg _ (Decimal.display_injective (List.append_cancel_left h))

/-- The first parameter shows the letter, and the others differ from it in the index. -/
theorem paramOf_injOn : Set.InjOn (List.map paramOf) {typeParams | Declared typeParams} := by
  rintro _ ⟨identifiers, random, params, rfl⟩ _ ⟨identifiers', random', params', rfl⟩ heq
  have hparams : params = params' := by
    rw [← kinds_of_extracted params (Generics.new identifiers random),
      ← kinds_of_extracted params' (Generics.new identifiers' random')]
    have hkinds := congrArg (List.map Prod.snd) heq
    rwa [List.map_map, List.map_map] at hkinds
  subst hparams
  cases params with
  | nil => rfl
  | cons kind params =>
    have hfirst := (List.cons.inj heq).1
    have hname : (Generics.new identifiers random).encode ++ [] =
        (Generics.new identifiers' random').encode ++ [] := congrArg Prod.fst hfirst
    rw [List.append_nil, List.append_nil] at hname
    rw [prefix_injective hname]

theorem declared_named {typeParams : List Generic} (h : Declared typeParams) :
    ∀ x ∈ typeParams.map paramOf, IsName x.1 ∧ True := by
  obtain ⟨identifiers, random, params, rfl⟩ := h
  intro x hx
  obtain ⟨g, hg, rfl⟩ := List.mem_map.mp hx
  obtain ⟨c, rest, hname, -, hletters⟩ := Generics.asName_upper hg
  refine ⟨?_, trivial⟩
  change IsName g.asName
  rw [hname]
  exact ⟨List.cons_ne_nil c rest, hletters⟩

theorem typeParameters_readable : Readable writeTypeParameters Declared
    fun r => r.head? ≠ some '<' := by
  have hlist := generic_readable.separated (w := ", ".toList) (G := fun r => ∃ s, r = '>' :: s)
    (fun r => separates_cons (by decide)) (fun r ⟨s, hs⟩ => hs ▸ separates_cons (by decide))
    (fun r s ⟨t, ht⟩ heq => by rw [ht] at heq; cases heq) (fun x r s hx ⟨t, ht⟩ heq => by
      obtain ⟨c, rest, hc, hcons⟩ := name_ne_nil (r := kindSuffix x.2 ++ r) hx.1
      rw [List.append_assoc, hcons, ht] at heq
      obtain ⟨rfl, -⟩ := List.cons.inj heq
      exact absurd hc (by decide))
  have hopen : ∀ {typeParams : List Generic} {r : Text}, typeParams ≠ [] →
      writeTypeParameters typeParams ++ r = '<' :: (", ".toList.intercalate
        ((typeParams.map paramOf).map fun x => x.1 ++ kindSuffix x.2) ++ '>' :: r) := by
    intro typeParams r hne
    rw [writeTypeParameters, if_neg (by simpa using hne), writeArray, List.map_map,
      List.append_assoc, List.append_assoc]
    have hsame : (fun x : Text × Kind => x.1 ++ kindSuffix x.2) ∘ paramOf = Generic.encode :=
      funext fun g => (encode_paramOf g).symm
    rw [hsame]
    rfl
  intro a ha b hb r hr s hs heq
  by_cases hanil : a = [] <;> by_cases hbnil : b = []
  · subst hanil hbnil
    exact ⟨rfl, heq⟩
  · subst hanil
    rw [hopen hbnil] at heq
    exact absurd (congrArg List.head? heq) hr
  · subst hbnil
    rw [hopen hanil] at heq
    exact absurd (congrArg List.head? heq).symm hs
  · rw [hopen hanil, hopen hbnil] at heq
    obtain ⟨hsame, hrest⟩ := hlist (declared_named ha) (declared_named hb) ⟨r, rfl⟩ ⟨s, rfl⟩
      (List.cons.inj heq).2
    exact ⟨paramOf_injOn ha hb hsame, (List.cons.inj hrest).2⟩

theorem spaces_add (m n : ℕ) : spaces (m + n) = spaces m ++ spaces n := List.replicate_add m n ' '

theorem name_injOn : Set.InjOn String.toList {s | IsName s.toList} :=
  fun _ _ _ _ h => String.toList_inj.mp h

theorem string_readable : Readable String.toList (fun s => IsName s.toList) (Stops IsLetter) :=
  name_readable.comap name_injOn fun _ h => h

section
variable {imports : List Import} {typeParams : List Generic}
  (hS : Scope.Clear ⟨imports, typeParams⟩)
include hS

theorem field_readable (indent : ℕ) :
    Readable (fun f : Field => f.encode indent) (Field.In imports typeParams) Generics.Ends := by
  have hall := (string_readable.seq (fun _ _ => (type_readable hS).tag ": ".toList)
    fun _ _ _ _ _ _ => stops_cons.mpr (by decide)).tag (spaces indent)
  have hfield := hall.comap (f := fun f : Field => (f.name, f.fType))
    (Q := Field.In imports typeParams) (fun a _ b _ h => by
      obtain ⟨name, fType⟩ := a
      cases h
      rfl) fun f hf => ⟨hf.name, hf.fType⟩
  intro a ha b hb r hr s hs heq
  refine hfield ha hb hr hs ?_
  simpa only [Field.encode, List.append_assoc] using heq

theorem fields_readable (indent : ℕ) :
    Readable (fun fields => encodeFields fields (indent + INDENT))
      (fun fields => ∀ f ∈ fields, f.In imports typeParams)
      fun r => ∃ s, r = spaces indent ++ '\x7d' :: s := by
  have hspace : ∀ f : Field, ∃ rest, f.encode (indent + INDENT) = ' ' :: rest :=
    fun f => ⟨_, rfl⟩
  have hlist := (field_readable hS (indent + INDENT)).separated (w := ",\n".toList)
    (G := fun r => ∃ s, r = '\n' :: s) (fun r => stops_cons.mpr (by decide))
    (fun r ⟨s, hs⟩ => hs ▸ stops_cons.mpr (by decide))
    (fun r s ⟨t, ht⟩ heq => by rw [ht] at heq; cases heq) (fun f r s _ ⟨t, ht⟩ heq => by
      obtain ⟨rest, hrest⟩ := hspace f
      rw [ht, hrest] at heq
      cases heq)
  -- a field is indented deeper than the brace that closes the struct
  have hopen : ∀ {fields : List Field} (r s : Text), fields ≠ [] →
      encodeFields fields (indent + INDENT) ++ r ≠ spaces indent ++ '\x7d' :: s := by
    intro fields r s hne heq
    obtain ⟨f, fields, rfl⟩ := List.exists_cons_of_ne_nil hne
    have hfirst : ∃ rest, encodeFields (f :: fields) (indent + INDENT) ++ r =
        spaces indent ++ (spaces INDENT ++ rest) := by
      rw [encodeFields, if_neg (by simp), List.map_cons]
      cases fields with
      | nil =>
        rw [List.map_nil, List.intercalate_singleton, Field.encode, spaces_add]
        simp only [List.append_assoc]
        exact ⟨_, rfl⟩
      | cons g fields =>
        rw [List.map_cons, List.intercalate_cons_cons, Field.encode, spaces_add]
        simp only [List.append_assoc]
        exact ⟨_, rfl⟩
    obtain ⟨rest, hrest⟩ := hfirst
    rw [hrest] at heq
    cases List.append_cancel_left heq
  intro a ha b hb r hr s hs heq
  obtain ⟨r', hr'⟩ := hr
  obtain ⟨s', hs'⟩ := hs
  by_cases hanil : a = [] <;> by_cases hbnil : b = []
  · subst hanil hbnil
    exact ⟨rfl, heq⟩
  · subst hanil
    rw [hr'] at heq
    exact absurd heq.symm (hopen s r' hbnil)
  · subst hbnil
    rw [hs'] at heq
    exact absurd heq (hopen r s' hanil)
  · have hlines : ∀ {fields : List Field} {r : Text}, fields ≠ [] →
        encodeFields fields (indent + INDENT) ++ r =
          ",\n".toList.intercalate (fields.map (Field.encode · (indent + INDENT))) ++ '\n' :: r := by
      intro fields r hne
      rw [encodeFields, if_neg (by simpa using hne), List.append_assoc]
      rfl
    replace heq : encodeFields a (indent + INDENT) ++ r = encodeFields b (indent + INDENT) ++ s := heq
    rw [hlines hanil, hlines hbnil] at heq
    obtain ⟨hsame, hrest⟩ := hlist ha hb ⟨r, rfl⟩ ⟨s, rfl⟩ heq
    exact ⟨hsame, (List.cons.inj hrest).2⟩

def structTail (indent : ℕ) (x : Bool × List Field) : Text :=
  if x.1 then ";".toList
  else " \x7b\n".toList ++ encodeFields x.2 (indent + INDENT) ++ spaces indent ++ "\x7d".toList

theorem structTail_readable (indent : ℕ) :
    Readable (structTail indent)
      (fun x => (x.1 → x.2 = []) ∧ ∀ f ∈ x.2, f.In imports typeParams) fun _ => True := by
  have hfields := (fields_readable hS indent).closed (spaces indent ++ "\x7d".toList)
    fun r => ⟨r, List.append_assoc _ _ _⟩
  rintro ⟨na, fa⟩ ⟨hna, hfa⟩ ⟨nb, fb⟩ ⟨hnb, hfb⟩ r hr s hs heq
  have hdeclared : ∀ {fields : List Field} {r : Text}, structTail indent (false, fields) ++ r =
      " \x7b\n".toList ++ ((encodeFields fields (indent + INDENT) ++
        (spaces indent ++ "\x7d".toList)) ++ r) := by
    intro fields r
    simp only [structTail, Bool.false_eq_true, if_false, List.append_assoc]
  cases na <;> cases nb
  · rw [hdeclared, hdeclared] at heq
    obtain ⟨hsame, rfl⟩ := hfields hfa hfb trivial trivial (List.append_cancel_left heq)
    exact ⟨congrArg _ hsame, rfl⟩
  · rw [hdeclared] at heq
    cases heq
  · rw [hdeclared] at heq
    cases heq
  · obtain rfl : fa = [] := hna rfl
    obtain rfl : fb = [] := hnb rfl
    exact ⟨rfl, List.append_cancel_left heq⟩

end

theorem nominal_readable : Readable (fun x : Bool × Bool => nominalName x.1 x.2)
    (fun x => x.1 → x.2 = false) fun _ => True := by
  have hne : ∀ r n, nominalName r n ≠ [] := by decide
  have hinj : ∀ r n : Bool, (r → n = false) → ∀ r' n' : Bool, (r' → n' = false) →
      (nominalName r n).head? = (nominalName r' n').head? → r = r' ∧ n = n' := by decide
  refine of_head (fun a _ => hne a.1 a.2) fun a b ha hb h => ?_
  obtain ⟨hfirst, hsecond⟩ := hinj a.1 a.2 ha b.1 b.2 hb h
  exact Prod.ext hfirst hsecond

/-- A native resource is not written as native; its tail tells. -/
def StructDef.nominal (s : StructDef) : Bool × Bool :=
  (s.isNominalResource, !s.isNominalResource && s.isNative)

theorem nominalName_nominal (s : StructDef) :
    nominalName s.nominal.1 s.nominal.2 = nominalName s.isNominalResource s.isNative := by
  unfold StructDef.nominal nominalName
  cases s.isNominalResource <;> rfl

theorem struct_readable {imports : List Import} (hi : ClearImports imports) (indent : ℕ) :
    Readable (fun s : StructDef => s.encode indent) (StructDef.In imports) fun _ => True := by
  have htail : ∀ typeParams, Declared typeParams → Readable (structTail indent)
      (fun x => (x.1 → x.2 = []) ∧ ∀ f ∈ x.2, f.In imports typeParams) fun _ => True :=
    fun typeParams ht => structTail_readable (scope_clear hi ht) indent
  have hfollow : ∀ (x : Bool × List Field) (r : Text), ∃ c rest,
      structTail indent x ++ r = c :: rest ∧ ¬IsLetter c ∧ c ≠ '<' := by
    rintro ⟨native, fields⟩ r
    cases native
    · exact ⟨' ', _, rfl, by decide, by decide⟩
    · exact ⟨';', _, rfl, by decide, by decide⟩
  have hparams := typeParameters_readable.seq htail fun _ x r _ _ _ => by
    obtain ⟨c, rest, heq, -, hc⟩ := hfollow x r
    rw [heq]
    exact fun h => hc (Option.some.inj h)
  have hname := string_readable.seq (fun _ _ => hparams) fun _ x r _ _ _ => by
    by_cases hnil : x.1 = []
    · rw [hnil]
      obtain ⟨c, rest, heq, hc, -⟩ := hfollow x.2 r
      change Stops IsLetter (structTail indent x.2 ++ r)
      rw [heq]
      exact stops_cons.mpr hc
    · rw [writeTypeParameters, if_neg (by simpa using hnil)]
      exact stops_cons.mpr (by decide)
  have hall := (nominal_readable.seq (fun _ _ => hname.tag " ".toList)
    fun _ _ _ _ _ _ => trivial).tag (spaces indent)
  have hstruct := hall.comap (Q := StructDef.In imports)
    (f := fun s : StructDef => (s.nominal, s.name, s.typeParams, s.isNative, s.fields))
    (fun a _ b _ h => by
      obtain ⟨ra, na, name, typeParams, fields, _⟩ := a
      obtain ⟨rb, nb, _⟩ := b
      simp only [Prod.mk.injEq] at h
      obtain ⟨hnominal, rfl, rfl, rfl, rfl⟩ := h
      obtain rfl : ra = rb := congrArg Prod.fst hnominal
      rfl) fun s hs => by
        refine ⟨fun hres => ?_, hs.name, hs.declared, fun h => s.native_fields h, hs.fields⟩
        replace hres : s.isNominalResource = true := hres
        simp [StructDef.nominal, hres]
  intro a ha b hb r hr s hs heq
  refine hstruct ha hb hr hs ?_
  simpa only [StructDef.encode, structTail, nominalName_nominal, List.append_assoc] using heq

theorem param_named (index : ℕ) : IsName (Param.writeName false index) := by
  have hstem : ∀ c ∈ "_arg".toList, IsLetter c := by decide
  refine ⟨by simp [Param.writeName, writeMarked], fun c hc => ?_⟩
  replace hc : c ∈ "_arg".toList ++ if index ≠ 0 then Decimal.display index else [] := hc
  rcases List.mem_append.mp hc with hc | hc
  · exact hstem c hc
  · split at hc
    · exact Generics.display_letters hc
    · cases hc

theorem array_readable {α : Type} {p : α → Text} {P : α → Prop}
    (h : Readable p P Generics.Ends)
    (hhead : ∀ a r, P a → ∃ c rest, p a ++ r = c :: rest ∧ c ≠ ')') :
    Readable (fun l : List α => writeArray "(".toList ", ".toList (l.map p) ")".toList)
      (fun l => ∀ a ∈ l, P a) fun _ => True := by
  have hlist := h.separated (w := ", ".toList) (G := fun r => ∃ s, r = ')' :: s)
    (fun r => stops_cons.mpr (by decide)) (fun r ⟨s, hs⟩ => hs ▸ stops_cons.mpr (by decide))
    (fun r s ⟨t, ht⟩ heq => by rw [ht] at heq; cases heq) (fun a r s ha ⟨t, ht⟩ heq => by
      obtain ⟨c, rest, hcons, hc⟩ := hhead a r ha
      rw [hcons, ht] at heq
      exact hc (List.cons.inj heq).1)
  have hall := (hlist.closed ")".toList fun r => ⟨r, rfl⟩).tag "(".toList
  intro a ha b hb r hr s hs heq
  refine hall ha hb hr hs ?_
  simpa only [writeArray, List.append_assoc] using heq

section
variable {imports : List Import} {typeParams : List Generic}
  (hS : Scope.Clear ⟨imports, typeParams⟩)
include hS

theorem param_readable : Readable Param.encode (Param.In imports typeParams) Generics.Ends := by
  have hname : Readable (fun index => Param.writeName false index) (fun _ => True)
      (Stops IsLetter) := by
    refine name_readable.comap (fun i _ j _ h => ?_) fun i _ => param_named i
    exact (writeMarked_injective (by simp) (by simp) h).2
  have hall := hname.seq (fun _ _ => (type_readable hS).tag ": ".toList)
    fun _ _ _ _ _ _ => stops_cons.mpr (by decide)
  intro a ha b hb r hr s hs heq
  obtain ⟨ua, ia, ta⟩ := a
  obtain ⟨ub, ib, tb⟩ := b
  obtain rfl : ua = false := ha.unused
  obtain rfl : ub = false := hb.unused
  simp only [Param.encode, List.append_assoc] at heq
  obtain ⟨hsame, rfl⟩ := hall (a := (ia, ta)) ⟨trivial, ha.fType⟩ (b := (ib, tb))
    ⟨trivial, hb.fType⟩ hr hs (by simpa only [List.append_assoc] using heq)
  cases hsame
  exact ⟨rfl, rfl⟩

theorem type_head {t : Generics.FType} (ht : t.In ⟨imports, typeParams⟩) (r : Text) :
    ∃ c rest, t.encode ++ r = c :: rest ∧ (IsLetter c ∨ c = '&') := by
  rcases Generics.shape_cases t with ⟨s, hs, hencode⟩ | ⟨u, rfl⟩ | ⟨u, rfl⟩
  · obtain ⟨c, rest, hc, heq⟩ := name_ne_nil (t.shape_of hS ht hs).first
      (r := Generics.encodeSecond s.second ++ Generics.encodeArguments s.arguments ++ r)
    refine ⟨c, rest, ?_, .inl hc⟩
    rw [hencode, Generics.Shape.encode, List.append_assoc, heq]
  · exact ⟨'&', _, Generics.encode_ref_append u r, .inr rfl⟩
  · exact ⟨'&', _, Generics.encode_refMut_append u r, .inr rfl⟩

def Closes (r : Text) : Prop := ∃ c s, r = c :: s ∧ (c = ';' ∨ c = ' ')

theorem ret_readable : Readable encodeRet (fun ts => ∀ t ∈ ts, t.In ⟨imports, typeParams⟩) Closes := by
  have hparen : ∀ {c : Char}, IsLetter c ∨ c = '&' → c ≠ ')' ∧ c ≠ '(' := by
    rintro c (h | rfl)
    · constructor <;> rintro rfl <;> exact absurd h (by decide)
    · decide
  have hlist := array_readable (type_readable hS) fun t r ht => by
    obtain ⟨c, rest, heq, hc⟩ := type_head hS ht r
    exact ⟨c, rest, heq, (hparen hc).1⟩
  have hends : ∀ {r : Text}, Closes r → Generics.Ends r := by
    rintro r ⟨c, s, rfl, rfl | rfl⟩
    · exact stops_cons.mpr (by decide)
    · exact stops_cons.mpr (by decide)
  have hnone : ∀ {r s : Text}, Closes r → r ≠ ':' :: s := by
    rintro r s ⟨c, rest, rfl, rfl | rfl⟩ h <;> cases h
  have hmany : ∀ {t t' : Generics.FType} {ts : List Generics.FType} {r : Text},
      encodeRet (t :: t' :: ts) ++ r = ':' :: ' ' ::
        (writeArray "(".toList ", ".toList ((t :: t' :: ts).map Generics.FType.encode) ")".toList ++
          r) := by
    intro t t' ts r
    rw [encodeRet, List.append_assoc]
    rfl
    all_goals simp
  have hone : ∀ {t : Generics.FType} {r : Text},
      encodeRet [t] ++ r = ':' :: ' ' :: (t.encode ++ r) := fun {_ _} => rfl
  have hmixed : ∀ {t : Generics.FType} {ts : List Generics.FType} {r s : Text},
      t.In ⟨imports, typeParams⟩ →
        t.encode ++ r ≠ writeArray "(".toList ", ".toList (ts.map Generics.FType.encode) ")".toList ++
          s := by
    intro t ts r s ht heq
    obtain ⟨c, rest, hcons, hc⟩ := type_head hS ht r
    rw [hcons] at heq
    exact (hparen hc).2 (List.cons.inj heq).1
  intro a ha b hb r hr s hs heq
  -- nothing, a colon and a type, or a colon and a list in parentheses
  match a, b with
  | [], [] => exact ⟨rfl, heq⟩
  | [], [t] => exact absurd heq (hnone hr)
  | [], t :: t' :: ts => exact absurd (heq.trans hmany) (hnone hr)
  | [t], [] => exact absurd heq.symm (hnone hs)
  | t :: t' :: ts, [] => exact absurd (heq.symm.trans hmany) (hnone hs)
  | [t], [u] =>
    rw [hone, hone] at heq
    obtain ⟨rfl, rfl⟩ := type_readable hS (ha t List.mem_cons_self) (hb u List.mem_cons_self)
      (hends hr) (hends hs) (List.cons.inj (List.cons.inj heq).2).2
    exact ⟨rfl, rfl⟩
  | [t], u :: u' :: us =>
    rw [hone, hmany] at heq
    exact absurd (List.cons.inj (List.cons.inj heq).2).2 (hmixed (ha t List.mem_cons_self))
  | t :: t' :: ts, [u] =>
    rw [hone, hmany] at heq
    exact absurd (List.cons.inj (List.cons.inj heq).2).2.symm (hmixed (hb u List.mem_cons_self))
  | t :: t' :: ts, u :: u' :: us =>
    rw [hmany, hmany] at heq
    obtain ⟨hsame, rfl⟩ := hlist ha hb trivial trivial (List.cons.inj (List.cons.inj heq).2).2
    exact ⟨hsame, rfl⟩

end

def functionTail (indent : ℕ) (native : Bool) : Text :=
  if native then ";".toList
  else " \x7b".toList ++ mockBody indent ++ "\n".toList ++ spaces indent ++ "\x7d".toList

theorem functionTail_closes (indent : ℕ) (native : Bool) (r : Text) :
    Closes (functionTail indent native ++ r) := by
  cases native
  · exact ⟨' ', _, rfl, .inr rfl⟩
  · exact ⟨';', _, rfl, .inl rfl⟩

section
variable {imports : List Import} (hi : ClearImports imports)
include hi

/-- A signature, from the type parameters on. -/
theorem signature_readable (indent : ℕ) (native : Bool) :
    Readable (fun x : List Generic × List Param × List Generics.FType =>
        writeTypeParameters x.1 ++
          (writeArray "(".toList ", ".toList (x.2.1.map Param.encode) ")".toList ++
            (encodeRet x.2.2 ++ functionTail indent native)))
      (fun x => Declared x.1 ∧ (∀ p ∈ x.2.1, p.In imports x.1) ∧
        ∀ t ∈ x.2.2, t.In ⟨imports, x.1⟩) fun _ => True := by
  have hrest : ∀ typeParams, Declared typeParams →
      Readable (fun x : List Param × List Generics.FType =>
          writeArray "(".toList ", ".toList (x.1.map Param.encode) ")".toList ++
            (encodeRet x.2 ++ functionTail indent native))
        (fun x => (∀ p ∈ x.1, p.In imports typeParams) ∧
          ∀ t ∈ x.2, t.In ⟨imports, typeParams⟩) fun _ => True := by
    intro typeParams ht
    have hS := scope_clear hi ht
    have hparams := array_readable (param_readable hS) fun p r hp => by
      have hfirst : ∃ rest, p.encode ++ r = '_' :: rest := by
        rw [Param.encode, hp.unused]
        exact ⟨_, rfl⟩
      obtain ⟨rest, heq⟩ := hfirst
      exact ⟨'_', rest, heq, by decide⟩
    exact hparams.seq (fun _ _ => (ret_readable hS).closed _ fun r =>
      functionTail_closes indent native r) fun _ _ _ _ _ _ => trivial
  exact typeParameters_readable.seq hrest fun _ _ _ _ _ _ h =>
    absurd (Option.some.inj h) (by decide)

theorem function_readable (indent : ℕ) :
    Readable (fun f : FunctionsDef => f.encode indent) (FunctionsDef.In imports) fun _ => True := by
  have hnative := Readable.flag (w := "native ".toList) (by decide)
  have hpublic := Readable.flag (w := "public ".toList) (by decide)
  have hname : ∀ native, Readable (fun x : String × List Generic × List Param ×
      List Generics.FType => x.1.toList ++ (writeTypeParameters x.2.1 ++
        (writeArray "(".toList ", ".toList (x.2.2.1.map Param.encode) ")".toList ++
          (encodeRet x.2.2.2 ++ functionTail indent native))))
      (fun x => IsName x.1.toList ∧ Declared x.2.1 ∧ (∀ p ∈ x.2.2.1, p.In imports x.2.1) ∧
        ∀ t ∈ x.2.2.2, t.In ⟨imports, x.2.1⟩) fun _ => True := by
    intro native
    refine string_readable.seq (fun _ _ => signature_readable hi indent native)
      fun _ x r _ _ _ => ?_
    by_cases hnil : x.1 = []
    · rw [hnil]
      exact stops_cons.mpr (by decide)
    · rw [writeTypeParameters, if_neg (by simpa using hnil)]
      exact stops_cons.mpr (by decide)
  have hall := (hnative.seq (fun native _ => hpublic.seq
    (fun _ _ => (hname native).tag "fun ".toList) fun _ _ r _ _ _ => by
      exact fun h => absurd (Option.some.inj h) (by decide)) fun _ x r _ _ _ => by
        obtain ⟨b, x⟩ := x
        cases b <;> exact fun h => absurd (Option.some.inj h) (by decide)).tag (spaces indent)
  have hfunction := hall.comap (Q := FunctionsDef.In imports)
    (f := fun f : FunctionsDef =>
      (f.isNative, f.isPublic, f.name, f.typeParams, f.params, f.ret)) (fun a _ b _ h => by
        obtain ⟨pa, na, _⟩ := a
        cases h
        rfl) fun f hf => ⟨trivial, trivial, hf.name, hf.declared, hf.params, hf.ret⟩
  intro a ha b hb r hr s hs heq
  refine hfunction ha hb hr hs ?_
  simpa only [FunctionsDef.encode, functionTail, List.append_assoc] using heq

end

end MoveTools.Disassembler.Declarations
