import MoveTools.Dove.Lexer
import MoveTools.Index.Meta
import MoveTools.Executor.Oracles
import MoveTools.Compiler.Ss58

namespace MoveTools.Dove
open Syntax Attempt Index
open Executor (TypeTag StructTag AccountAddress)

/-- `AccountAddress::new`, as the number of the bytes. -/
def accountAddress (bytes : Address) : AccountAddress := bytes.foldl (fun n b => 256 * n + b.toNat) 0

def primitive : String → Option TypeTag
  | "bool" => some .Bool
  | "u8" => some .U8
  | "u64" => some .U64
  | "u128" => some .U128
  | "address" => some .Address
  | "signer" => some .Signer
  | _ => none

section
variable (ids : Identifiers)

mutual

def unwrapSpannedTy_ (this : Option AccountAddress) : Typ → Attempt String TypeTag
  | .Apply (.Name name) tyParams =>
    match primitive name with
    | some t => pure t
    | none =>
      if name = "Vec" then
        match tyParams with
        | [ty] => do
          let t ← unwrap (unwrapSpannedTy_ this ty)
          pure (.Vector t)
        | _ => throw "Could not parse input: type without struct name & module address"
      else throw "Could not parse input: type without struct name & module address"
  | .Apply (.ModuleAccess name structName) tyParams =>
    match this with
    | none => throw "Could not parse input: type without module address"
    | some this => do
      let module ← result (identifierNew ids name)
      let name ← result (identifierNew ids structName)
      let typeParams ← unwrapTyParams (some this) tyParams
      pure (.Struct ⟨this, module.toList, name.toList, typeParams⟩)
  | .Apply (.QualifiedModuleAccess moduleId structName) tyParams => do
    let address := accountAddress moduleId.address
    let module ← result (identifierNew ids moduleId.name)
    let name ← result (identifierNew ids structName)
    let typeParams ← unwrapTyParams (some address) tyParams
    pure (.Struct ⟨address, module.toList, name.toList, typeParams⟩)
  | _ => throw "Could not parse input: unsupported type"

/-- An error panics. -/
def unwrapTyParams (this : Option AccountAddress) : List Typ → Attempt String (List TypeTag)
  | [] => pure []
  | ty :: tys => do
    let t ← unwrap (unwrapSpannedTy_ this ty)
    let ts ← unwrapTyParams this tys
    pure (t :: ts)

end

def unwrapSpannedTy (ty : Typ) : Attempt String TypeTag := unwrapSpannedTy_ ids none ty

/-- How errors of the lexer and the parser are reported. -/
def queryError (e : String) : String := "Query parsing error:\n\t" ++ e

structure TypeTagQuery where
  tt : TypeTag
  i : Option ℕ

variable (p : MoveParser)

/-- `while lexer.peek() != Tok::EOF`, with the body. -/
def indexTurn (x : Lexer × Option ℕ) : Attempt String (Turn (Lexer × Option ℕ) (Option ℕ)) :=
  if x.1.peek = none then pure (.leave x.2)
  else do
    let lexer ← result (x.1.advance.mapError queryError)
    if x.1.peek = some .LBracket then
      let (num, lexer) := p.parseNum lexer
      pure (.again (lexer, num.toOption))
    else pure (.leave x.2)

/-- The text that is parsed. Only with `ps_address` the ss58 addresses of the query are decoded. -/
def queryText (cr : Compiler.Ss58.Crates) (psAddress : Bool) (s : Text) : Text :=
  if psAddress then (Compiler.Ss58.replaceSs58Addresses cr s {}).1 else s

def parse (cr : Compiler.Ss58.Crates) (psAddress : Bool) (fuel : ℕ) (s : Text) :
    Attempt String TypeTagQuery := do
  let q := queryText cr psAddress s
  let lexer ← result ((Lexer.start p q).mapError queryError)
  let (ty, lexer) ← result ((p.parseType lexer).mapError queryError)
  let tt ← unwrapSpannedTy ids ty
  let i ← loop (indexTurn p) fuel (lexer, none)
  pure ⟨tt, i⟩

def parseTypeParams (lexer : Lexer) : Attempt String (TypeTag × Lexer) := do
  let (ty, lexer) ← result (p.parseType lexer)
  let t ← unwrapSpannedTy ids ty
  pure (t, lexer)

def structTag (address : AccountAddress) (module name : String) (typeParams : List TypeTag) :
    Option TypeTag :=
  if ids.isValid module ∧ ids.isValid name then
    some (.Struct ⟨address, module.toList, name.toList, typeParams⟩)
  else none

mutual

/-- The tag of a type that stands in a struct type at the address `this`. -/
def tagOf (this : Option AccountAddress) : Typ → Option TypeTag
  | .Apply (.Name name) args =>
    (tagsOf this args).bind fun ts =>
      match primitive name, ts with
      | some t, _ => some t
      | none, [t] => if name = "Vec" then some (.Vector t) else none
      | none, _ => none
  | .Apply (.ModuleAccess module name) args =>
    this.bind fun address => (tagsOf (some address) args).bind (structTag ids address module name)
  | .Apply (.QualifiedModuleAccess ident name) args =>
    (tagsOf (some (accountAddress ident.address)) args).bind
      (structTag ids (accountAddress ident.address) ident.name name)
  | _ => none

def tagsOf (this : Option AccountAddress) : List Typ → Option (List TypeTag)
  | [] => some []
  | ty :: tys => (tagOf this ty).bind fun t => (tagsOf this tys).map (t :: ·)

end

def typeArguments : Typ → List Typ
  | .Apply _ args => args
  | _ => []

/-- The address that the type arguments of a type inherit. -/
def innerAddress (this : Option AccountAddress) : Typ → Option AccountAddress
  | .Apply (.QualifiedModuleAccess ident _) _ => some (accountAddress ident.address)
  | _ => this

/-- The outermost name of a type can be resolved. -/
def NameResolves (this : Option AccountAddress) : Typ → Prop
  | .Apply (.Name name) args => (primitive name).isSome ∨ name = "Vec" ∧ args.length = 1
  | .Apply (.ModuleAccess module name) _ => this.isSome ∧ ids.isValid module ∧ ids.isValid name
  | .Apply (.QualifiedModuleAccess ident name) _ => ids.isValid ident.name ∧ ids.isValid name
  | _ => False

mutual

/-- A type can be resolved, with all in it that is looked at: what a built-in name is applied to is
not. -/
def Resolves (this : Option AccountAddress) : Typ → Prop
  | .Apply (.Name name) args =>
    (primitive name).isSome ∨ name = "Vec" ∧ args.length = 1 ∧ AllResolve this args
  | .Apply (.ModuleAccess module name) args =>
    this.isSome ∧ ids.isValid module ∧ ids.isValid name ∧ AllResolve this args
  | .Apply (.QualifiedModuleAccess ident name) args =>
    ids.isValid ident.name ∧ ids.isValid name ∧
      AllResolve (some (accountAddress ident.address)) args
  | _ => False

def AllResolve (this : Option AccountAddress) : List Typ → Prop
  | [] => True
  | ty :: tys => Resolves this ty ∧ AllResolve this tys

end

/-- A type gives its tag, or else an error, also where it is written in a query or as a type
parameter of a call. -/
structure Answers (cr : Compiler.Ss58.Crates) (psAddress : Bool) (ty : Typ) : Prop where
  tag : ∀ t, tagOf ids none ty = some t → unwrapSpannedTy ids ty = result (.ok t)
  error : tagOf ids none ty = none → ∃ e, unwrapSpannedTy ids ty = result (.error e)
  query : ∀ fuel s l l', Lexer.start p (queryText cr psAddress s) = .ok l →
    p.parseType l = .ok (ty, l') → tagOf ids none ty = none →
      ∃ e, parse ids p cr psAddress fuel s = result (.error e)
  typeParams : ∀ l l', p.parseType l = .ok (ty, l') → tagOf ids none ty = none →
    ∃ e, parseTypeParams ids p l = result (.error e)

variable {ids p} {this : Option AccountAddress} {name module : String} {args : List Typ}
  {address : AccountAddress} {ident : ModuleIdent}

theorem identifierNew_valid (h : ids.isValid name) : identifierNew ids name = .ok name := if_pos h

theorem identifierNew_invalid (h : ¬ids.isValid name) :
    identifierNew ids name = .error (invalidIdentifier name) := if_neg h

theorem unwrap_primitive {t : TypeTag} (h : primitive name = some t) :
    unwrapSpannedTy_ ids this (.Apply (.Name name) args) = result (.ok t) := by
  unfold unwrapSpannedTy_
  rw [h]
  rfl

theorem unwrap_vec (ty : Typ) : unwrapSpannedTy_ ids this (.Apply (.Name "Vec") [ty]) =
    unwrap (unwrapSpannedTy_ ids this ty) >>= fun t => result (.ok (.Vector t)) := rfl

theorem unwrap_otherName (h : ¬NameResolves ids this (.Apply (.Name name) args)) :
    ∃ e, unwrapSpannedTy_ ids this (.Apply (.Name name) args) = result (.error e) := by
  obtain ⟨hprimitive, hvec⟩ := not_or.mp h
  unfold unwrapSpannedTy_
  rw [Option.not_isSome_iff_eq_none.mp hprimitive]
  by_cases hname : name = "Vec"
  · match args with
    | [] => exact ⟨_, by rw [if_pos hname]; rfl⟩
    | [_] => exact absurd ⟨hname, rfl⟩ hvec
    | _ :: _ :: _ => exact ⟨_, by rw [if_pos hname]; rfl⟩
  · exact ⟨_, by rw [if_neg hname]; rfl⟩

/-- Both kinds of struct names are taken alike, once the address is known. -/
def unwrapStruct (ids : Identifiers) (address : AccountAddress) (module name : String)
    (args : List Typ) : Attempt String TypeTag := do
  let module ← result (identifierNew ids module)
  let name ← result (identifierNew ids name)
  let typeParams ← unwrapTyParams ids (some address) args
  pure (.Struct ⟨address, module.toList, name.toList, typeParams⟩)

theorem unwrap_moduleAccess :
    unwrapSpannedTy_ ids (some address) (.Apply (.ModuleAccess module name) args) =
      unwrapStruct ids address module name args := rfl

theorem unwrap_qualified :
    unwrapSpannedTy_ ids this (.Apply (.QualifiedModuleAccess ident name) args) =
      unwrapStruct ids (accountAddress ident.address) ident.name name args := rfl

theorem unwrapStruct_valid (h : ids.isValid module ∧ ids.isValid name) :
    unwrapStruct ids address module name args =
      unwrapTyParams ids (some address) args >>= fun ts =>
        result (.ok (.Struct ⟨address, module.toList, name.toList, ts⟩)) := by
  rw [unwrapStruct, identifierNew_valid h.1, identifierNew_valid h.2]
  rfl

theorem unwrapStruct_invalid (h : ¬(ids.isValid module ∧ ids.isValid name)) :
    ∃ e, unwrapStruct ids address module name args = result (.error e) := by
  rw [unwrapStruct]
  by_cases hmodule : ids.isValid module
  · rw [identifierNew_valid hmodule, identifierNew_invalid fun hname => h ⟨hmodule, hname⟩]
    exact ⟨_, rfl⟩
  · rw [identifierNew_invalid hmodule]
    exact ⟨_, rfl⟩

theorem tagsOf_cons_iff {ty : Typ} {tys : List Typ} {ts : List TypeTag} :
    tagsOf ids this (ty :: tys) = some ts ↔
      ∃ t us, tagOf ids this ty = some t ∧ tagsOf ids this tys = some us ∧ ts = t :: us := by
  rw [tagsOf, Option.bind_eq_some_iff]
  constructor
  · rintro ⟨t, ht, h⟩
    obtain ⟨us, hus, rfl⟩ := Option.map_eq_some_iff.mp h
    exact ⟨t, us, ht, hus, rfl⟩
  · rintro ⟨t, us, ht, hus, rfl⟩
    exact ⟨t, ht, by rw [hus]; rfl⟩

theorem tagOf_vec (ty : Typ) :
    tagOf ids this (.Apply (.Name "Vec") [ty]) = (tagOf ids this ty).map .Vector := by
  rw [tagOf, tagsOf, tagsOf]
  cases tagOf ids this ty <;> rfl

theorem tagOf_primitive {t : TypeTag} (h : primitive name = some t) :
    tagOf ids this (.Apply (.Name name) args) = (tagsOf ids this args).map fun _ => t := by
  rw [tagOf, h]
  cases tagsOf ids this args <;> rfl

theorem tagOf_moduleAccess :
    tagOf ids (some address) (.Apply (.ModuleAccess module name) args) =
      (tagsOf ids (some address) args).bind (structTag ids address module name) := rfl

theorem tagOf_qualified :
    tagOf ids this (.Apply (.QualifiedModuleAccess ident name) args) =
      (tagsOf ids (some (accountAddress ident.address)) args).bind
        (structTag ids (accountAddress ident.address) ident.name name) := rfl

theorem nameResolves_name (h : NameResolves ids this (.Apply (.Name name) args)) :
    (∃ t, primitive name = some t) ∨ name = "Vec" ∧ ∃ ty, args = [ty] :=
  h.imp Option.isSome_iff_exists.mp fun hvec => ⟨hvec.1, List.length_eq_one_iff.mp hvec.2⟩

theorem structTag_isSome_iff {ts : List TypeTag} :
    (structTag ids address module name ts).isSome ↔ ids.isValid module ∧ ids.isValid name := by
  rw [structTag]
  split
  case isTrue h => exact iff_of_true rfl h
  case isFalse h => exact iff_of_false (by simp) h

theorem tagOf_unresolved : ∀ {ty : Typ}, ¬NameResolves ids this ty → tagOf ids this ty = none
  | .Apply (.Name name) args, h => by
    obtain ⟨hprimitive, hvec⟩ := not_or.mp h
    rw [tagOf, Option.not_isSome_iff_eq_none.mp hprimitive, Option.bind_eq_none_iff]
    intro ts hts
    match args, ts, hts with
    | [], _, hts =>
      cases hts
      rfl
    | [_], [t], _ => exact if_neg fun hname => hvec ⟨hname, rfl⟩
    | [_], [], _ | [_], _ :: _ :: _, _ => rfl
    | _ :: _ :: _, ts, hts =>
      obtain ⟨t, us, -, hus, rfl⟩ := tagsOf_cons_iff.mp hts
      obtain ⟨u, vs, -, -, rfl⟩ := tagsOf_cons_iff.mp hus
      rfl
  | .Apply (.ModuleAccess module name) args, h => by
    cases this with
    | none => rfl
    | some address =>
      rw [tagOf_moduleAccess, Option.bind_eq_none_iff]
      exact fun ts _ => Option.not_isSome_iff_eq_none.mp fun hvalid =>
        h ⟨rfl, structTag_isSome_iff.mp hvalid⟩
  | .Apply (.QualifiedModuleAccess ident name) args, h => by
    rw [tagOf_qualified, Option.bind_eq_none_iff]
    exact fun ts _ => Option.not_isSome_iff_eq_none.mp fun hvalid =>
      h (structTag_isSome_iff.mp hvalid)
  | .Unit, _ | .Multiple _, _ | .Ref _ _, _ | .Fun _ _, _ => by simp [tagOf]

theorem tagOf_resolved : ∀ {this : Option AccountAddress} {ty : Typ}, NameResolves ids this ty →
    ((tagOf ids this ty).isSome ↔ (tagsOf ids (innerAddress this ty) (typeArguments ty)).isSome)
  | this, .Apply (.Name name) args, h => by
    rcases nameResolves_name h with ⟨t, ht⟩ | ⟨rfl, ty, rfl⟩
    · rw [tagOf_primitive ht, Option.isSome_map]
      rfl
    · rw [tagOf_vec, Option.isSome_map]
      show _ ↔ (tagsOf ids this [ty]).isSome
      rw [tagsOf, tagsOf]
      cases tagOf ids this ty <;> simp
  | some address, .Apply (.ModuleAccess module name) args, h => by
    rw [tagOf_moduleAccess]
    show _ ↔ (tagsOf ids (some address) args).isSome
    cases tagsOf ids (some address) args with
    | none => rfl
    | some ts => exact iff_of_true (structTag_isSome_iff.mpr h.2) rfl
  | this, .Apply (.QualifiedModuleAccess ident name) args, h => by
    rw [tagOf_qualified]
    show _ ↔ (tagsOf ids (some (accountAddress ident.address)) args).isSome
    cases tagsOf ids (some (accountAddress ident.address)) args with
    | none => rfl
    | some ts => exact iff_of_true (structTag_isSome_iff.mpr h) rfl

theorem tagOf_isSome_iff (this : Option AccountAddress) (ty : Typ) :
    (tagOf ids this ty).isSome ↔ NameResolves ids this ty ∧
      (tagsOf ids (innerAddress this ty) (typeArguments ty)).isSome := by
  by_cases h : NameResolves ids this ty
  · rw [tagOf_resolved h, and_iff_right h]
  · rw [tagOf_unresolved h]
    exact iff_of_false (by simp) fun hr => h hr.1

theorem tagsOf_isSome_iff {tys : List Typ} :
    (tagsOf ids this tys).isSome ↔ ∀ ty ∈ tys, (tagOf ids this ty).isSome := by
  induction tys with
  | nil => simp [tagsOf]
  | cons ty tys ih =>
    rw [List.forall_mem_cons, ← ih, tagsOf]
    cases tagOf ids this ty <;> simp

theorem unwrap_unresolved : ∀ {ty : Typ}, ¬NameResolves ids this ty →
    ∃ e, unwrapSpannedTy_ ids this ty = result (.error e)
  | .Apply (.Name name) args, h => unwrap_otherName h
  | .Apply (.ModuleAccess module name) args, h => by
    cases this with
    | none => exact ⟨_, rfl⟩
    | some address => exact unwrapStruct_invalid fun hvalid => h ⟨rfl, hvalid⟩
  | .Apply (.QualifiedModuleAccess ident name) args, h => unwrapStruct_invalid h
  | .Unit, _ | .Multiple _, _ | .Ref _ _, _ | .Fun _ _, _ => ⟨_, rfl⟩

theorem unwrapTyParams_noError : ∀ tys, NoError (unwrapTyParams ids this tys)
  | [] => noError_ok _
  | ty :: tys => by
    rw [unwrapTyParams]
    refine (noError_unwrap _).bind fun t => ?_
    exact (unwrapTyParams_noError tys).bind fun ts => noError_ok _

theorem unwrap_resolved : ∀ {this : Option AccountAddress} {ty : Typ}, NameResolves ids this ty →
    NoError (unwrapSpannedTy_ ids this ty)
  | this, .Apply (.Name name) args, h => by
    rcases nameResolves_name h with ⟨t, ht⟩ | ⟨rfl, ty, rfl⟩
    · rw [unwrap_primitive ht]
      exact noError_ok t
    · rw [unwrap_vec]
      exact (noError_unwrap _).bind fun t => noError_ok _
  | some address, .Apply (.ModuleAccess module name) args, h => by
    rw [unwrap_moduleAccess, unwrapStruct_valid h.2]
    exact (unwrapTyParams_noError args).bind fun ts => noError_ok _
  | this, .Apply (.QualifiedModuleAccess ident name) args, h => by
    rw [unwrap_qualified, unwrapStruct_valid h]
    exact (unwrapTyParams_noError args).bind fun ts => noError_ok _

theorem unwrap_of_tag_primitive {t t' : TypeTag} (ht : primitive name = some t)
    (h : tagOf ids this (.Apply (.Name name) args) = some t') :
    unwrapSpannedTy_ ids this (.Apply (.Name name) args) = result (.ok t') := by
  rw [tagOf_primitive ht, Option.map_eq_some_iff] at h
  obtain ⟨ts, -, rfl⟩ := h
  exact unwrap_primitive ht

theorem unwrapStruct_of_tags {ts : List TypeTag} {t : TypeTag}
    (hargs : unwrapTyParams ids (some address) args = result (.ok ts))
    (h : structTag ids address module name ts = some t) :
    unwrapStruct ids address module name args = result (.ok t) := by
  have hvalid := structTag_isSome_iff.mp (Option.isSome_of_mem h)
  rw [structTag, if_pos hvalid, Option.some.injEq] at h
  rw [unwrapStruct_valid hvalid, hargs, ok_bind, h]

/-- A name takes its tag from elsewhere only as `Vec` of one type. -/
theorem name_of_tag {t : TypeTag} (h : tagOf ids this (.Apply (.Name name) args) = some t) :
    (∃ t, primitive name = some t) ∨ name = "Vec" ∧ ∃ ty, args = [ty] :=
  nameResolves_name ((tagOf_isSome_iff this _).mp (Option.isSome_of_mem h)).1

mutual

theorem unwrapSpannedTy_of_tag : ∀ {this : Option AccountAddress} {ty : Typ} {t : TypeTag},
    tagOf ids this ty = some t → unwrapSpannedTy_ ids this ty = result (.ok t)
  | this, .Apply (.Name name) [], t, h | this, .Apply (.Name name) (_ :: _ :: _), t, h => by
    rcases name_of_tag h with ⟨t', ht'⟩ | ⟨-, ty, hty⟩
    · exact unwrap_of_tag_primitive ht' h
    · cases hty
  | this, .Apply (.Name name) [ty], t, h => by
    rcases name_of_tag h with ⟨t', ht'⟩ | ⟨rfl, -⟩
    · exact unwrap_of_tag_primitive ht' h
    · rw [tagOf_vec, Option.map_eq_some_iff] at h
      obtain ⟨u, hu, rfl⟩ := h
      rw [unwrap_vec, unwrapSpannedTy_of_tag hu]
      rfl
  | some address, .Apply (.ModuleAccess module name) args, t, h => by
    rw [tagOf_moduleAccess, Option.bind_eq_some_iff] at h
    obtain ⟨ts, hts, h⟩ := h
    rw [unwrap_moduleAccess, unwrapStruct_of_tags (unwrapTyParams_of_tags hts) h]
  | _, .Apply (.QualifiedModuleAccess ident name) args, t, h => by
    rw [tagOf_qualified, Option.bind_eq_some_iff] at h
    obtain ⟨ts, hts, h⟩ := h
    rw [unwrap_qualified, unwrapStruct_of_tags (unwrapTyParams_of_tags hts) h]
  | _, .Unit, _, h | _, .Multiple _, _, h | _, .Ref _ _, _, h | _, .Fun _ _, _, h => by
    simp [tagOf] at h

theorem unwrapTyParams_of_tags : ∀ {this : Option AccountAddress} {tys : List Typ}
    {ts : List TypeTag}, tagsOf ids this tys = some ts →
      unwrapTyParams ids this tys = result (.ok ts)
  | _, [], ts, h => by
    rw [tagsOf] at h
    cases h
    rw [unwrapTyParams]
    rfl
  | this, ty :: tys, ts, h => by
    obtain ⟨t, us, ht, hus, rfl⟩ := tagsOf_cons_iff.mp h
    rw [unwrapTyParams, unwrapSpannedTy_of_tag ht, unwrap_ok, ok_bind, unwrapTyParams_of_tags hus,
      ok_bind]
    rfl

end

/-- Only the outermost name is answered with an error. -/
theorem unwrap_error_iff {ty : Typ} :
    (∃ e, unwrapSpannedTy ids ty = result (.error e)) ↔ ¬NameResolves ids none ty := by
  constructor
  · rintro ⟨e, he⟩ hname
    exact unwrap_resolved hname e he
  · exact unwrap_unresolved

theorem nameResolves_of_resolves : ∀ {ty : Typ}, Resolves ids this ty → NameResolves ids this ty
  | .Apply (.Name _) _, h => h.imp_right fun hvec => ⟨hvec.1, hvec.2.1⟩
  | .Apply (.ModuleAccess _ _) _, h => ⟨h.1, h.2.1, h.2.2.1⟩
  | .Apply (.QualifiedModuleAccess _ _) _, h => ⟨h.1, h.2.1⟩
  | .Unit, h | .Multiple _, h | .Ref _ _, h | .Fun _ _, h => by simp [Resolves] at h

theorem ok_iff_of_unresolved {ty : Typ} (h : ¬NameResolves ids this ty) :
    (∃ t, unwrapSpannedTy_ ids this ty = result (.ok t)) ↔ Resolves ids this ty := by
  obtain ⟨e, he⟩ := unwrap_unresolved h
  rw [he]
  refine iff_of_false ?_ (mt nameResolves_of_resolves h)
  rintro ⟨t, ht⟩
  cases ht

theorem ok_iff_of_primitive {t : TypeTag} (h : primitive name = some t) :
    (∃ t, unwrapSpannedTy_ ids this (.Apply (.Name name) args) = result (.ok t)) ↔
      Resolves ids this (.Apply (.Name name) args) := by
  rw [unwrap_primitive h, Resolves, h]
  exact iff_of_true ⟨t, rfl⟩ (.inl rfl)

theorem unwrapStruct_ok_iff : (∃ t, unwrapStruct ids address module name args = result (.ok t)) ↔
    ids.isValid module ∧ ids.isValid name ∧
      ∃ ts, unwrapTyParams ids (some address) args = result (.ok ts) := by
  rw [← and_assoc]
  by_cases hvalid : ids.isValid module ∧ ids.isValid name
  · rw [unwrapStruct_valid hvalid, and_iff_right hvalid, bind_ok_iff]
    exact exists_congr fun ts => and_iff_left ⟨_, rfl⟩
  · obtain ⟨e, he⟩ := @unwrapStruct_invalid ids name module args address hvalid
    rw [he]
    refine iff_of_false ?_ fun h => hvalid h.1
    rintro ⟨t, ht⟩
    cases ht

mutual

theorem unwrapSpannedTy_ok_iff : ∀ {this : Option AccountAddress} {ty : Typ},
    (∃ t, unwrapSpannedTy_ ids this ty = result (.ok t)) ↔ Resolves ids this ty
  | this, .Apply (.Name name) [] | this, .Apply (.Name name) (_ :: _ :: _) => by
    cases h : primitive name with
    | some t => exact ok_iff_of_primitive h
    | none =>
      refine ok_iff_of_unresolved ?_
      simp [NameResolves, h]
  | this, .Apply (.Name name) [ty] => by
    cases h : primitive name with
    | some t => exact ok_iff_of_primitive h
    | none =>
      by_cases hvec : name = "Vec"
      · subst hvec
        have hresolves : Resolves ids this (.Apply (.Name "Vec") [ty]) ↔ Resolves ids this ty := by
          simp [Resolves, AllResolve, primitive]
        rw [unwrap_vec, hresolves, ← unwrapSpannedTy_ok_iff, bind_ok_iff]
        exact exists_congr fun t => (and_iff_left ⟨_, rfl⟩).trans unwrap_eq_ok_iff
      · refine ok_iff_of_unresolved ?_
        simp [NameResolves, h, hvec]
  | none, .Apply (.ModuleAccess module name) args => ok_iff_of_unresolved fun h => by cases h.1
  | some address, .Apply (.ModuleAccess module name) args => by
    rw [unwrap_moduleAccess, unwrapStruct_ok_iff, unwrapTyParams_ok_iff, Resolves]
    exact (and_iff_right rfl).symm
  | this, .Apply (.QualifiedModuleAccess ident name) args => by
    rw [unwrap_qualified, unwrapStruct_ok_iff, unwrapTyParams_ok_iff, Resolves]
  | this, .Unit | this, .Multiple _ | this, .Ref _ _ | this, .Fun _ _ => ok_iff_of_unresolved id

theorem unwrapTyParams_ok_iff : ∀ {this : Option AccountAddress} {tys : List Typ},
    (∃ ts, unwrapTyParams ids this tys = result (.ok ts)) ↔ AllResolve ids this tys
  | this, [] => by
    rw [AllResolve, unwrapTyParams]
    exact iff_of_true ⟨[], rfl⟩ trivial
  | this, ty :: tys => by
    rw [AllResolve, ← unwrapSpannedTy_ok_iff, ← unwrapTyParams_ok_iff, unwrapTyParams, bind_ok_iff,
      ← exists_and_right]
    refine exists_congr fun t => and_congr unwrap_eq_ok_iff ?_
    rw [bind_ok_iff]
    exact exists_congr fun ts => and_iff_left ⟨_, rfl⟩

end

theorem unwrapSpannedTy_ne_stuck_iff {ty : Typ} : unwrapSpannedTy ids ty ≠ stuck ↔
    (NameResolves ids none ty → Resolves ids none ty) := by
  rw [← unwrapSpannedTy_ok_iff, imp_iff_not_or, ← unwrap_error_iff]
  unfold unwrapSpannedTy
  rcases unwrapSpannedTy_ ids none ty with _ | e | t
  · refine iff_of_false (fun h => h rfl) ?_
    rintro (⟨_, h⟩ | ⟨_, h⟩) <;> cases h
  · exact iff_of_true (result_ne_stuck _) (.inl ⟨e, rfl⟩)
  · exact iff_of_true (result_ne_stuck _) (.inr ⟨t, rfl⟩)

/-- The panic of a type argument is not caught. -/
theorem type_query_answers_iff (ids : Identifiers) (p : MoveParser) (cr : Compiler.Ss58.Crates)
    (psAddress : Bool) (ty : Typ) : Answers ids p cr psAddress ty ↔
      (NameResolves ids none ty → ∀ arg ∈ typeArguments ty,
        (tagOf ids (innerAddress none ty) arg).isSome) := by
  have hpart : (NameResolves ids none ty → ∀ arg ∈ typeArguments ty,
      (tagOf ids (innerAddress none ty) arg).isSome) ↔
        (tagOf ids none ty = none → ¬NameResolves ids none ty) := by
    rw [← tagsOf_isSome_iff, ← Option.not_isSome_iff_eq_none, tagOf_isSome_iff]
    tauto
  rw [hpart]
  constructor
  · exact fun h hnone => unwrap_error_iff.mp (h.error hnone)
  · intro h
    have herror : tagOf ids none ty = none → ∃ e, unwrapSpannedTy ids ty = result (.error e) :=
      fun hnone => unwrap_error_iff.mpr (h hnone)
    refine ⟨fun t => unwrapSpannedTy_of_tag, herror, ?_, ?_⟩
    · intro fuel s l l' hl hty hnone
      obtain ⟨e, he⟩ := herror hnone
      refine ⟨e, ?_⟩
      rw [parse, hl, Except.mapError, ok_bind, hty, Except.mapError, ok_bind]
      show (unwrapSpannedTy ids ty >>= _) = _
      rw [he, error_bind]
    · intro l l' hty hnone
      obtain ⟨e, he⟩ := herror hnone
      refine ⟨e, ?_⟩
      rw [parseTypeParams, hty, ok_bind]
      show (unwrapSpannedTy ids ty >>= _) = _
      rw [he, error_bind]

/-- `0x1::Foo::Res<Bar>` -/
def unknownArgument : Typ :=
  .Apply (.QualifiedModuleAccess ⟨[1], "Foo"⟩ "Res") [.Apply (.Name "Bar") []]

theorem unknownArgument_panics : ¬∀ (ids : Identifiers) (ty : Typ), tagOf ids none ty = none →
    ∃ e, unwrapSpannedTy ids ty = result (.error e) := fun h => by
  obtain ⟨e, he⟩ := h ⟨fun _ => true⟩ unknownArgument rfl
  exact result_ne_stuck _ he.symm

end
end MoveTools.Dove
