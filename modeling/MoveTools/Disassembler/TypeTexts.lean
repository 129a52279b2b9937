import MoveTools.Library.Identifiers
import MoveTools.Disassembler.Body

namespace MoveTools.Disassembler.Generics
open Readable

def primitives : List Text := ["u8", "bool", "u64", "u128", "address", "signer"].map String.toList

def reserved : List Text := ["vector".toList, "mut".toList] ++ primitives

structure Scope where
  imports : List Import
  typeParams : List Generic

structure Scope.Clear (S : Scope) : Prop where
  imports_named : ∀ i ∈ S.imports, IsName i.encode
  imports_injOn : Set.InjOn Import.encode {i | i ∈ S.imports}
  typeParams_named : ∀ g ∈ S.typeParams, IsName g.asName
  typeParams_injOn : Set.InjOn Generic.asName {g | g ∈ S.typeParams}
  typeParams_free : ∀ g ∈ S.typeParams, g.asName ∉ reserved

section
variable (S : Scope)

def FullStructName.In (name : FullStructName) : Prop :=
  IsName name.name.toList ∧
    match name.import_ with
    | some import_ => import_ ∈ S.imports
    | none => name.name.toList ∉ reserved ∧ ∀ g ∈ S.typeParams, name.name.toList ≠ g.asName

mutual

/-- All names of the type are in scope. Where a struct is instantiated, it has parameters. -/
def FType.In : FType → Prop
  | .Generic g => g ∈ S.typeParams
  | .Primitive name => name ∈ primitives
  | .Ref t | .RefMut t | .Vec t => t.In
  | .Struct name => name.In S
  | .StructInst name generics => name.In S ∧ generics ≠ [] ∧ AllIn generics

def AllIn : List FType → Prop
  | [] => True
  | t :: ts => t.In ∧ AllIn ts

end

theorem allIn_iff {ts : List FType} : AllIn S ts ↔ ∀ t ∈ ts, t.In S := by
  induction ts with
  | nil => simp [AllIn]
  | cons t ts ih => simp [AllIn, ih]

end

theorem encode_vec (t : FType) :
    (FType.Vec t).encode = "vector<".toList ++ t.encode ++ ">".toList := rfl

theorem encode_ref_append (t : FType) (r : Text) :
    (FType.Ref t).encode ++ r = '&' :: (t.encode ++ r) := rfl

theorem encode_refMut_append (t : FType) (r : Text) :
    (FType.RefMut t).encode ++ r = '&' :: ("mut ".toList ++ (t.encode ++ r)) := rfl

theorem encode_struct (name : FullStructName) : (FType.Struct name).encode = name.encode := rfl

theorem encode_structInst (name : FullStructName) (t : FType) (ts : List FType) :
    (FType.StructInst name (t :: ts)).encode =
      name.encode ++ "<".toList ++ t.encode ++ encodeMore ts ++ ">".toList := rfl

/-- How a type is written that is no reference: a name, its qualified part, and arguments. -/
structure Shape where
  first : Text
  second : Option Text
  arguments : List FType

def FullStructName.shape (name : FullStructName) (arguments : List FType) : Shape :=
  match name.import_ with
  | some import_ => ⟨import_.encode, some name.name.toList, arguments⟩
  | none => ⟨name.name.toList, none, arguments⟩

def FType.shape : FType → Option Shape
  | .Generic g => some ⟨g.asName, none, []⟩
  | .Primitive name => some ⟨name, none, []⟩
  | .Ref _ | .RefMut _ => none
  | .Vec t => some ⟨"vector".toList, none, [t]⟩
  | .Struct name => some (name.shape [])
  | .StructInst name generics => some (name.shape generics)

def encodeSecond : Option Text → Text
  | some name => "::".toList ++ name
  | none => []

def encodeArguments : List FType → Text
  | [] => []
  | t :: ts => "<".toList ++ t.encode ++ encodeMore ts ++ ">".toList

def Shape.encode (s : Shape) : Text := s.first ++ (encodeSecond s.second ++ encodeArguments s.arguments)

theorem FullStructName.shape_encode (name : FullStructName) (ts : List FType) :
    (name.shape ts).encode = name.encode ++ encodeArguments ts := by
  obtain ⟨name, import_⟩ := name
  cases import_ with
  | some import_ =>
    simp only [FullStructName.shape, Shape.encode, encodeSecond, FullStructName.encode,
      List.append_assoc]
  | none => rfl

theorem FType.shape_encode {t : FType} {s : Shape} (h : t.shape = some s) :
    s.encode = t.encode := by
  have hword : ∀ w : Text, (⟨w, none, []⟩ : Shape).encode = w := fun w => List.append_nil w
  cases t with
  | Generic g =>
    cases h
    exact hword g.asName
  | Primitive name =>
    cases h
    exact hword name
  | Ref t => cases h
  | RefMut t => cases h
  | Vec t =>
    cases h
    have hmore : encodeMore [] = [] := rfl
    rw [encode_vec, Shape.encode, encodeSecond, encodeArguments, hmore, List.append_nil]
    rfl
  | Struct name =>
    cases h
    rw [name.shape_encode, encodeArguments, List.append_nil, encode_struct]
  | StructInst name ts =>
    cases h
    rw [name.shape_encode]
    cases ts with
    | nil => exact List.append_nil name.encode
    | cons t ts =>
      rw [encode_structInst, encodeArguments, List.append_assoc, List.append_assoc,
        List.append_assoc, List.append_assoc, List.append_assoc]

section
variable {S : Scope}

/-- The type of a shape. -/
def Shape.toType (S : Scope) (s : Shape) : FType :=
  match s.second, s.arguments with
  | none, [] =>
    if primitives.contains s.first then .Primitive s.first
    else match S.typeParams.find? (·.asName == s.first) with
      | some g => .Generic g
      | none => .Struct ⟨String.ofList s.first, none⟩
  | none, t :: ts =>
    if s.first = "vector".toList then .Vec t
    else .StructInst ⟨String.ofList s.first, none⟩ (t :: ts)
  | some name, [] => .Struct ⟨String.ofList name, S.imports.find? (·.encode == s.first)⟩
  | some name, t :: ts =>
    .StructInst ⟨String.ofList name, S.imports.find? (·.encode == s.first)⟩ (t :: ts)

theorem find?_of_injOn {α β : Type} [BEq β] [LawfulBEq β] {f : α → β} {l : List α} {a : α}
    (ha : a ∈ l) (hf : Set.InjOn f {x | x ∈ l}) : l.find? (fun x => f x == f a) = some a := by
  have hsome : (l.find? fun x => f x == f a).isSome :=
    List.find?_isSome.mpr ⟨a, ha, beq_self_eq_true (f a)⟩
  obtain ⟨b, hb⟩ := Option.isSome_iff_exists.mp hsome
  have hsame : f b == f a := by simpa using List.find?_some hb
  rw [hb, hf (List.mem_of_find?_eq_some hb) ha (eq_of_beq hsame)]

theorem find?_fresh {S : Scope} {w : Text} (h : ∀ g ∈ S.typeParams, w ≠ g.asName) :
    S.typeParams.find? (·.asName == w) = none := by
  rw [List.find?_eq_none]
  intro g hg hw
  exact h g hg (eq_of_beq hw).symm

theorem primitives_reserved {w : Text} (h : w ∈ primitives) : w ∈ reserved :=
  List.mem_append_right _ h

theorem FType.toType_shape (hS : S.Clear) {t : FType} {s : Shape} (ht : t.In S)
    (h : t.shape = some s) : s.toType S = t := by
  cases t with
  | Generic g =>
    cases h
    rw [FType.In] at ht
    -- a type parameter has no reserved name
    have hfree : ¬primitives.contains g.asName :=
      fun hp => hS.typeParams_free g ht (primitives_reserved (List.contains_iff_mem.mp hp))
    have hfind : S.typeParams.find? (·.asName == g.asName) = some g :=
      find?_of_injOn ht hS.typeParams_injOn
    simp only [Shape.toType, if_neg hfree, hfind]
  | Primitive name =>
    cases h
    rw [FType.In] at ht
    simp only [Shape.toType, if_pos (List.contains_iff_mem.mpr ht)]
  | Ref t => cases h
  | RefMut t => cases h
  | Vec t =>
    cases h
    rfl
  | Struct name =>
    cases h
    rw [FType.In] at ht
    obtain ⟨name, import_⟩ := name
    cases import_ with
    | some import_ =>
      have hfind : S.imports.find? (·.encode == import_.encode) = some import_ :=
        find?_of_injOn ht.2 hS.imports_injOn
      simp only [FullStructName.shape, Shape.toType, hfind, String.ofList_toList]
    | none =>
      replace ht : IsName name.toList ∧ name.toList ∉ reserved ∧
        ∀ g ∈ S.typeParams, name.toList ≠ g.asName := ht
      have hfree : ¬primitives.contains name.toList :=
        fun hp => ht.2.1 (primitives_reserved (List.contains_iff_mem.mp hp))
      have hfind : S.typeParams.find? (·.asName == name.toList) = none := find?_fresh ht.2.2
      simp only [FullStructName.shape, Shape.toType, if_neg hfree, hfind, String.ofList_toList]
  | StructInst name ts =>
    cases h
    rw [FType.In] at ht
    obtain ⟨name, import_⟩ := name
    obtain ⟨hname, hts, -⟩ := ht
    cases ts with
    | nil => exact absurd rfl hts
    | cons t ts =>
      cases import_ with
      | some import_ =>
        have hfind : S.imports.find? (·.encode == import_.encode) = some import_ :=
          find?_of_injOn hname.2 hS.imports_injOn
        simp only [FullStructName.shape, Shape.toType, hfind, String.ofList_toList]
      | none =>
        replace hname : IsName name.toList ∧ name.toList ∉ reserved ∧
          ∀ g ∈ S.typeParams, name.toList ≠ g.asName := hname
        have hfree : name.toList ≠ "vector".toList := by
          intro heq
          exact hname.2.1 (heq ▸ List.mem_cons_self)
        simp only [FullStructName.shape, Shape.toType, if_neg hfree, String.ofList_toList]

def Ends : Text → Prop := Stops fun c => IsLetter c ∨ c = ':' ∨ c = '<'

theorem ends_stops {r : Text} (h : Ends r) : Stops IsLetter r :=
  fun c hc hletter => h c hc (.inl hletter)

theorem second_readable : Readable encodeSecond (fun second => ∀ name ∈ second, IsName name)
    fun r => Stops IsLetter r ∧ r.head? ≠ some ':' := by
  intro a ha b hb r hr s hs heq
  cases a with
  | none =>
    cases b with
    | none => exact ⟨rfl, heq⟩
    | some name =>
      replace heq : r = ':' :: ':' :: (name ++ s) := heq
      exact absurd (by rw [heq]; rfl) hr.2
  | some name =>
    cases b with
    | none =>
      replace heq : ':' :: ':' :: (name ++ r) = s := heq
      exact absurd (by rw [← heq]; rfl) hs.2
    | some name' =>
      replace heq : ':' :: ':' :: (name ++ r) = ':' :: ':' :: (name' ++ s) := heq
      obtain ⟨rfl, rfl⟩ := name_readable (ha name rfl) (hb name' rfl) hr.1 hs.1
        (List.cons.inj (List.cons.inj heq).2).2
      exact ⟨rfl, rfl⟩

theorem encodeMore_eq (ts : List FType) :
    encodeMore ts = ts.flatMap fun t => ", ".toList ++ t.encode := by
  induction ts with
  | nil => rfl
  | cons t ts ih =>
    rw [List.flatMap_cons, ← ih]
    rfl

theorem encodeArguments_eq (ts : List FType) :
    encodeArguments ts = bracketed '<' '>' ", ".toList FType.encode ts := by
  cases ts with
  | nil => rfl
  | cons t ts =>
    rw [encodeArguments, encodeMore_eq, bracketed]
    simp only [List.append_assoc]
    rfl

theorem arguments_readable {P : FType → Prop} (h : Readable FType.encode P Ends) :
    Readable encodeArguments (fun ts => ∀ t ∈ ts, P t) Ends := by
  have hbrackets : Readable (bracketed '<' '>' ", ".toList FType.encode)
      (fun ts => ∀ t ∈ ts, P t) fun r => r.head? ≠ some '<' := by
    refine h.brackets '<' (fun r => stops_cons.mpr (by decide)) (fun r => stops_cons.mpr (by decide)) ?_
    intro r s heq
    cases heq
  intro ts hts us hus r hr s hs heq
  rw [encodeArguments_eq, encodeArguments_eq] at heq
  exact hbrackets hts hus (fun hc => hr '<' hc (.inr (.inr rfl)))
    (fun hc => hs '<' hc (.inr (.inr rfl))) heq

structure Shape.Of (P : FType → Prop) (s : Shape) : Prop where
  first : IsName s.first
  second : ∀ name ∈ s.second, IsName name
  arguments : ∀ t ∈ s.arguments, P t

theorem arguments_stop (ts : List FType) {r : Text} (hr : Ends r) :
    Stops IsLetter (encodeArguments ts ++ r) ∧ (encodeArguments ts ++ r).head? ≠ some ':' := by
  cases ts with
  | nil => exact ⟨ends_stops hr, fun hc => hr ':' hc (.inr (.inl rfl))⟩
  | cons t ts => exact ⟨stops_cons.mpr (by decide), by simp [encodeArguments]⟩

theorem second_stops (second : Option Text) (ts : List FType) {r : Text} (hr : Ends r) :
    Stops IsLetter (encodeSecond second ++ encodeArguments ts ++ r) := by
  cases second with
  | none => exact (arguments_stop ts hr).1
  | some name => exact stops_cons.mpr (by decide)

theorem shape_readable {P : FType → Prop} (h : Readable FType.encode P Ends) :
    Readable Shape.encode (Shape.Of P) Ends := by
  have htail := second_readable.seq (fun _ _ => arguments_readable h)
    fun _ ts r _ _ hr => arguments_stop ts hr
  have hall := name_readable.seq (fun _ _ => htail) fun _ x r _ _ hr => second_stops x.1 x.2 hr
  intro a ha b hb r hr s hs heq
  obtain ⟨hsame, rfl⟩ := hall (a := (a.first, a.second, a.arguments))
    ⟨ha.first, ha.second, ha.arguments⟩ (b := (b.first, b.second, b.arguments))
    ⟨hb.first, hb.second, hb.arguments⟩ hr hs heq
  obtain ⟨a, a', a''⟩ := a
  cases hsame
  exact ⟨rfl, rfl⟩

theorem primitives_named : ∀ w ∈ primitives, IsName w := by decide

theorem FullStructName.shape_of {P : FType → Prop} (hS : S.Clear) {name : FullStructName}
    {ts : List FType} (hname : name.In S) (hts : ∀ t ∈ ts, P t) : (name.shape ts).Of P := by
  obtain ⟨name, import_⟩ := name
  cases import_ with
  | some import_ =>
    replace hname : IsName name.toList ∧ import_ ∈ S.imports := hname
    refine ⟨hS.imports_named import_ hname.2, fun name' hname' => ?_, hts⟩
    obtain rfl := Option.some.inj hname'
    exact hname.1
  | none => exact ⟨hname.1, fun name' hname' => (by cases hname'), hts⟩

theorem FType.shape_of (hS : S.Clear) {t : FType} {s : Shape} (ht : t.In S)
    (h : t.shape = some s) : s.Of fun u => u.In S ∧ sizeOf u < sizeOf t := by
  have hword : ∀ {w : Text}, IsName w →
      (⟨w, none, []⟩ : Shape).Of fun u => u.In S ∧ sizeOf u < sizeOf t :=
    fun hw => ⟨hw, fun _ h => (by cases h), fun _ h => (by cases h)⟩
  cases t with
  | Generic g =>
    cases h
    exact hword (hS.typeParams_named g ht)
  | Primitive name =>
    cases h
    exact hword (primitives_named name ht)
  | Ref t => cases h
  | RefMut t => cases h
  | Vec t =>
    cases h
    have hvector : IsName "vector".toList := by decide
    refine ⟨hvector, fun _ h => (by cases h), fun u hu => ?_⟩
    obtain rfl := List.mem_singleton.mp hu
    exact ⟨ht, by simp⟩
  | Struct name =>
    cases h
    exact FullStructName.shape_of hS ht fun _ h => by cases h
  | StructInst name ts =>
    cases h
    rw [FType.In, allIn_iff] at ht
    refine FullStructName.shape_of hS ht.1 fun u hu => ⟨ht.2.2 u hu, ?_⟩
    have := List.sizeOf_lt_of_mem hu
    simp only [FType.StructInst.sizeOf_spec]
    omega

theorem FType.shape_mut (hS : S.Clear) {t : FType} {s : Shape} (ht : t.In S)
    (h : t.shape = some s) (hsecond : s.second = none) : s.first ≠ "mut".toList := by
  have hmut : "mut".toList ∈ reserved := by decide
  have hstruct : ∀ {name : FullStructName} {ts : List FType}, name.In S →
      (name.shape ts).second = none → (name.shape ts).first ≠ "mut".toList := by
    rintro ⟨name, import_⟩ ts hname hnone
    cases import_ with
    | some import_ => cases hnone
    | none =>
      intro heq
      replace heq : name.toList = "mut".toList := heq
      exact hname.2.1 (heq.symm ▸ hmut)
  cases t with
  | Generic g =>
    cases h
    intro heq
    replace heq : g.asName = "mut".toList := heq
    exact hS.typeParams_free g ht (heq.symm ▸ hmut)
  | Primitive name =>
    cases h
    rintro rfl
    have hno : "mut".toList ∉ primitives := by decide
    exact hno ht
  | Ref t => cases h
  | RefMut t => cases h
  | Vec t =>
    cases h
    have hno : "vector".toList ≠ "mut".toList := by decide
    exact hno
  | Struct name =>
    cases h
    exact hstruct ht hsecond
  | StructInst name ts =>
    cases h
    exact hstruct ht.1 hsecond

theorem shape_cases (t : FType) : (∃ s, t.shape = some s ∧ t.encode = s.encode) ∨
    (∃ u, t = .Ref u) ∨ ∃ u, t = .RefMut u := by
  cases h : t.shape with
  | some s => exact .inl ⟨s, rfl, (t.shape_encode h).symm⟩
  | none =>
    cases t
    case Ref u => exact .inr (.inl ⟨u, rfl⟩)
    case RefMut u => exact .inr (.inr ⟨u, rfl⟩)
    all_goals cases h

theorem shape_ne_ref {P : FType → Prop} {s : Shape} (hs : s.Of P) {r rest : Text} :
    s.encode ++ r ≠ '&' :: rest := by
  obtain ⟨c, tail, hc, heq⟩ := name_ne_nil hs.first
    (r := encodeSecond s.second ++ encodeArguments s.arguments ++ r)
  rw [Shape.encode, List.append_assoc, heq]
  intro h
  obtain ⟨rfl, -⟩ := List.cons.inj h
  exact absurd hc (by decide)

theorem ref_ne_refMut (hS : S.Clear) {t : FType} (ht : t.In S) {r : Text} (hr : Ends r)
    (rest : Text) : t.encode ++ r ≠ "mut ".toList ++ rest := by
  intro heq
  rcases shape_cases t with ⟨s, hs, hencode⟩ | ⟨u, rfl⟩ | ⟨u, rfl⟩
  · have hof := t.shape_of hS ht hs
    rw [hencode, Shape.encode, List.append_assoc] at heq
    obtain ⟨hfirst, hrest⟩ := name_readable (a := s.first) hof.first (b := "mut".toList) (by decide)
      (second_stops s.second s.arguments hr) (s := ' ' :: rest) (stops_cons.mpr (by decide)) heq
    cases hsecond : s.second with
    | none => exact t.shape_mut hS ht hs hsecond hfirst
    | some name =>
      rw [hsecond] at hrest
      cases hrest
  · cases heq
  · cases heq

/-- A type is known by its text, and the text shows where it ends. -/
theorem type_readable (hS : S.Clear) : Readable FType.encode (FType.In S) Ends := by
  have hsized : ∀ n, Readable FType.encode (fun t => t.In S ∧ sizeOf t < n) Ends := by
    intro n
    induction n with
    | zero =>
      intro t ht
      exact absurd ht.2 (Nat.not_lt_zero _)
    | succ n ih =>
      rintro t ⟨ht, htn⟩ u ⟨hu, hun⟩ r hr s hs heq
      rcases shape_cases t with ⟨a, ha, haenc⟩ | ⟨t, rfl⟩ | ⟨t, rfl⟩ <;>
        rcases shape_cases u with ⟨b, hb, hbenc⟩ | ⟨u, rfl⟩ | ⟨u, rfl⟩
      -- both are names, with or without arguments
      · have hsmall : ∀ {t : FType} {a : Shape}, sizeOf t < n + 1 →
            a.Of (fun u => u.In S ∧ sizeOf u < sizeOf t) →
              a.Of fun u => u.In S ∧ sizeOf u < n := by
          intro t a htn ha
          refine ⟨ha.first, ha.second, fun u hu => ⟨(ha.arguments u hu).1, ?_⟩⟩
          have := (ha.arguments u hu).2
          omega
        rw [haenc, hbenc] at heq
        obtain ⟨rfl, rfl⟩ := shape_readable ih (hsmall htn (t.shape_of hS ht ha))
          (hsmall hun (u.shape_of hS hu hb)) hr hs heq
        exact ⟨by rw [← t.toType_shape hS ht ha, u.toType_shape hS hu hb], rfl⟩
      -- no name begins like a reference
      · rw [haenc] at heq
        exact absurd heq (shape_ne_ref (t.shape_of hS ht ha))
      · rw [haenc] at heq
        exact absurd heq (shape_ne_ref (t.shape_of hS ht ha))
      · rw [hbenc] at heq
        exact absurd heq.symm (shape_ne_ref (u.shape_of hS hu hb))
      · have htn' : sizeOf t < n := by
          rw [FType.Ref.sizeOf_spec] at htn
          omega
        have hun' : sizeOf u < n := by
          rw [FType.Ref.sizeOf_spec] at hun
          omega
        rw [encode_ref_append, encode_ref_append] at heq
        obtain ⟨rfl, rfl⟩ := ih (a := t) ⟨ht, htn'⟩ (b := u) ⟨hu, hun'⟩ hr hs (List.cons.inj heq).2
        exact ⟨rfl, rfl⟩
      -- what a reference refers to does not begin with `mut `
      · rw [encode_ref_append, encode_refMut_append] at heq
        exact absurd (List.cons.inj heq).2 (ref_ne_refMut hS (t := t) ht hr _)
      · rw [hbenc] at heq
        exact absurd heq.symm (shape_ne_ref (u.shape_of hS hu hb))
      · rw [encode_ref_append, encode_refMut_append] at heq
        exact absurd (List.cons.inj heq).2.symm (ref_ne_refMut hS (t := u) hu hs _)
      · have htn' : sizeOf t < n := by
          rw [FType.RefMut.sizeOf_spec] at htn
          omega
        have hun' : sizeOf u < n := by
          rw [FType.RefMut.sizeOf_spec] at hun
          omega
        rw [encode_refMut_append, encode_refMut_append] at heq
        obtain ⟨rfl, rfl⟩ := ih (a := t) ⟨ht, htn'⟩ (b := u) ⟨hu, hun'⟩ hr hs
          (List.append_cancel_left (List.cons.inj heq).2)
        exact ⟨rfl, rfl⟩
  intro t ht u hu r hr s hs heq
  exact hsized (sizeOf t + sizeOf u + 1) ⟨ht, by omega⟩ ⟨hu, by omega⟩ hr hs heq

end
end MoveTools.Disassembler.Generics
