import MoveTools.Dove.ArgumentTypes
import MoveTools.Compiler.AccountAddresses

namespace MoveTools.Dove
open Syntax Attempt Compiler

section
variable {cr : ArgumentCrates} {displayAddress : Address → Text} {args : List Text}
variable {total fuel : ℕ} {x : Prepared cr} {name : Text}

theorem prepareArgument_signer :
    prepareArgument args total fuel x (name, extractTypeName displayAddress ParamType.Signer.typ) =
      result (.ok (x.1 + 1, x.2)) := rfl

theorem prepareArgument_bools :
    prepareArgument args total fuel x
        (name, extractTypeName displayAddress (ParamType.Value .VectorBool).typ) =
      result (.error "Unexpected script parameter: vector<bool>") := rfl

theorem prepareArgument_value {t : ValueType} (ht : t ≠ .VectorBool) :
    prepareArgument args total fuel x
        (name, extractTypeName displayAddress (ParamType.Value t).typ) =
      pushArgument cr args total (readArgument cr t name x.2.1 fuel) x := by
  cases t
  case VectorBool => exact absurd rfl ht
  all_goals rfl

def Reads (cr : ArgumentCrates) (t : ValueType) (arg : Text) (v : ScriptArg cr.account.Address) :
    Prop :=
  t ≠ .VectorBool ∧ Denotes cr false t arg v

theorem argument_yields (args : List Text) (index total : ℕ) :
    Yields (fun _ => result (argument args index total)) fun arg => args[index]? = some arg := by
  refine (Yields.const _).congr fun arg => ?_
  unfold argument
  cases args[index]? with
  | none => exact iff_of_false (fun h => by cases h) fun h => by cases h
  | some s => exact (Except.ok.injEq s arg).to_iff.trans (Option.some.injEq s arg).to_iff.symm

theorem pushArgument_yields {t : ValueType} (ht : t ≠ .VectorBool) :
    Yields (fun fuel => pushArgument cr args total (readArgument cr t name x.2.1 fuel) x) fun y =>
      ∃ arg, args[x.2.1]? = some arg ∧
        ∃ v, Denotes cr false t arg v ∧ y = (x.1, x.2.1 + 1, x.2.2 ++ [v]) :=
  (argument_yields args x.2.1 total).bind fun arg _ =>
    (readArgument_yields ht name x.2.1 arg).bind fun _ _ => Yields.value _

variable (displayAddress args total x name) in
theorem prepareArgument_yields (t : ValueType) :
    Yields (fun fuel => prepareArgument args total fuel x
        (name, extractTypeName displayAddress (ParamType.Value t).typ)) fun y =>
      ∃ arg, args[x.2.1]? = some arg ∧
        ∃ v, Reads cr t arg v ∧ y = (x.1, x.2.1 + 1, x.2.2 ++ [v]) := by
  by_cases ht : t = .VectorBool
  · subst ht
    simp only [prepareArgument_bools]
    refine (Yields.error _).congr fun y => iff_of_false id ?_
    rintro ⟨arg, -, v, h, -⟩
    exact h.1 rfl
  · simp only [prepareArgument_value ht]
    refine (pushArgument_yields ht).congr fun y => ?_
    simp only [Reads, ht, ne_eq, not_false_eq_true, true_and]

def spelled (displayAddress : Address → Text) (params : List (String × ParamType)) :
    List (Text × Text) :=
  params.map fun p => (p.1.toList, extractTypeName displayAddress p.2.typ)

section
variable {D D' : ValueType → Text → ScriptArg cr.account.Address → Prop}

theorem fills_nil {values : List (ScriptArg cr.account.Address)} :
    Fills cr D [] args values ↔ values = [] := by
  constructor
  · rintro ⟨⟩
    rfl
  · rintro rfl
    exact .nil args

theorem fills_drop_cons {t : ValueType} {ts : List ValueType} {i : ℕ}
    {values : List (ScriptArg cr.account.Address)} :
    Fills cr D (t :: ts) (args.drop i) values ↔ ∃ arg, args[i]? = some arg ∧
      ∃ v, D t arg v ∧ ∃ more, Fills cr D ts (args.drop (i + 1)) more ∧ values = v :: more := by
  rw [← List.tail_drop, ← List.head?_drop]
  cases args.drop i with
  | nil =>
    constructor
    · rintro ⟨⟩
    · rintro ⟨arg, ⟨⟩, -⟩
  | cons s rest =>
    constructor
    · rintro (_ | ⟨h, hs⟩)
      exact ⟨s, rfl, _, h, _, hs, rfl⟩
    · rintro ⟨_, ⟨⟩, v, h, more, hs, rfl⟩
      exact .cons h hs

theorem Fills.mono {types : List ValueType} {values : List (ScriptArg cr.account.Address)}
    (h : Fills cr D types args values)
    (himp : ∀ t ∈ types, ∀ arg v, D t arg v → D' t arg v) : Fills cr D' types args values := by
  induction h with
  | nil args => exact .nil args
  | cons h hs ih =>
    exact .cons (himp _ (List.mem_cons_self ..) _ _ h)
      (ih fun t ht => himp t (List.mem_cons_of_mem _ ht))

theorem Fills.exists_of_mem {types : List ValueType} {values : List (ScriptArg cr.account.Address)}
    (h : Fills cr D types args values) {t : ValueType} (ht : t ∈ types) : ∃ arg v, D t arg v := by
  induction h with
  | nil args => cases ht
  | cons h hs ih =>
    rcases List.mem_cons.mp ht with rfl | ht
    · exact ⟨_, _, h⟩
    · exact ih ht

end

theorem prepareArguments_fold (params : List (String × ParamType)) (x : Prepared cr) :
    Yields (fun fuel => (spelled displayAddress params).foldlM (prepareArgument args total fuel) x)
      fun y => ∃ values, Fills cr (Reads cr) (valueTypes params) (args.drop x.2.1) values ∧
        y = (x.1 + signers params, x.2.1 + (valueTypes params).length, x.2.2 ++ values) := by
  induction params generalizing x with
  | nil =>
    refine (Yields.value x).congr fun y => ?_
    show y = x ↔ ∃ values, Fills cr _ [] _ values ∧ y = (x.1, x.2.1, x.2.2 ++ values)
    simp only [fills_nil, exists_eq_left, List.append_nil]
  | cons p params ih =>
    obtain ⟨name, type⟩ := p
    cases type with
    | Signer =>
      have hsigners : signers ((name, .Signer) :: params) = signers params + 1 :=
        List.countP_cons_of_pos (by simp)
      have hstep : (fun fuel => (spelled displayAddress ((name, .Signer) :: params)).foldlM
          (prepareArgument args total fuel) x) = fun fuel =>
          (spelled displayAddress params).foldlM (prepareArgument args total fuel)
            (x.1 + 1, x.2) := by
        funext fuel
        rw [spelled, List.map_cons, List.foldlM_cons, prepareArgument_signer]
        rfl
      -- a signer takes no argument
      rw [hstep]
      refine (ih (x.1 + 1, x.2)).congr fun y => ?_
      rw [hsigners, show x.1 + (signers params + 1) = x.1 + 1 + signers params by omega]
      exact Iff.rfl
    | Value t =>
      have hsigners : signers ((name, .Value t) :: params) = signers params :=
        List.countP_cons_of_neg (by simp)
      have hstep := (prepareArgument_yields displayAddress args total x name.toList t).bind
          (g := fun fuel y => (spelled displayAddress params).foldlM
            -- a value takes the next argument, whose index is the number of values read so far
            (prepareArgument args total fuel) y) fun y _ => ih y
      refine hstep.congr fun y => ?_
      rw [hsigners, show valueTypes ((name, .Value t) :: params) = t :: valueTypes params from rfl,
        List.length_cons]
      simp only [fills_drop_cons]
      constructor
      · rintro ⟨_, ⟨arg, harg, v, hv, rfl⟩, values, hvalues, rfl⟩
        refine ⟨v :: values, ⟨arg, harg, v, hv, values, hvalues, rfl⟩, ?_⟩
        simp only [List.append_assoc, List.singleton_append]
        rw [Nat.add_assoc, Nat.add_comm 1]
      · rintro ⟨_, ⟨arg, harg, v, hv, values, hvalues, rfl⟩, rfl⟩
        refine ⟨_, ⟨arg, harg, v, hv, rfl⟩, values, hvalues, ?_⟩
        simp only [List.append_assoc, List.singleton_append]
        rw [Nat.add_assoc, Nat.add_comm 1]

variable (cr displayAddress) in
theorem prepareArguments_yields (args : List Text) (params : List (String × ParamType)) :
    Yields (fun fuel => prepareArguments cr args fuel (spelled displayAddress params))
      fun y => ∃ values, Fills cr (Reads cr) (valueTypes params) args values ∧
        y = (signers params, (valueTypes params).length, values) := by
  refine (prepareArguments_fold params (0, 0, [])).congr fun y => ?_
  simp only [List.drop_zero, Nat.zero_add, List.nil_append]

theorem VectorText.loose {E : Type} {P : Text → E → Prop} {s : Text} {es : List E}
    (h : VectorText cr true P s es) : VectorText cr false P s es := by
  obtain ⟨opening, mid, closing, after, htokens, hopening, hclosing, hmid, hes, -⟩ := h
  exact ⟨opening, mid, closing, after, htokens, hopening, hclosing, hmid, hes, fun h => by cases h⟩

theorem Denotes.loose {t : ValueType} {arg : Text} {v : ScriptArg cr.account.Address}
    (h : Denotes cr true t arg v) : Denotes cr false t arg v := by
  cases t
  case VectorU8 =>
    by_cases hbracket : arg.contains '['
    · rw [Denotes, if_pos hbracket] at h ⊢
      obtain ⟨ns, hns, hv⟩ := h
      exact ⟨ns, hns.loose, hv⟩
    · rw [Denotes, if_neg hbracket] at h ⊢
      exact h
  case VectorU64 | VectorU128 | VectorBool | VectorAddress =>
    obtain ⟨es, hes, hv⟩ := h
    exact ⟨es, hes.loose, hv⟩
  all_goals exact h

/-- Some parameter is a vector of booleans, or the arguments are read as what they stand for. -/
theorem reads_iff {types : List ValueType} {values : List (ScriptArg cr.account.Address)} :
    Fills cr (Reads cr) types args values ↔
      .VectorBool ∉ types ∧ Fills cr (Denotes cr false) types args values := by
  constructor
  · intro h
    refine ⟨fun hbools => ?_, h.mono fun t _ arg v hv => hv.2⟩
    obtain ⟨arg, v, hv⟩ := h.exists_of_mem hbools
    exact hv.1 rfl
  · rintro ⟨hbools, h⟩
    refine h.mono fun t ht arg v hv => ⟨?_, hv⟩
    rintro rfl
    exact hbools ht

/-- Arguments that are written as documented are encoded, and all others refused, where no parameter
is a vector of booleans and no vector is written otherwise than documented. -/
theorem arguments_encoded_iff (displayAddress : Address → Text) (script : Script)
    (params : List (String × ParamType))
    (hparams : script.function.signature.parameters = params.map fun p => (p.1, p.2.typ))
    (cr : ArgumentCrates) (args : List Text) :
    let run := fun fuel =>
      prepareArguments cr args fuel (makeScriptMeta displayAddress script).parameters
    let types := valueTypes params
    ((∀ values, args.length = types.length → Fills cr (Denotes cr true) types args values →
        Settles run (result (.ok (signers params, types.length, values)))) ∧
      ((¬∃ values, Fills cr (Denotes cr true) types args values) →
        ∃ e, Settles run (result (.error e)))) ↔
    (∀ values, args.length = types.length → Fills cr (Denotes cr true) types args values →
      .VectorBool ∉ types) ∧
    ((¬∃ values, Fills cr (Denotes cr true) types args values) →
      .VectorBool ∈ types ∨ ¬∃ values, Fills cr (Denotes cr false) types args values) := by
  intro run types
  have hspelled : (makeScriptMeta displayAddress script).parameters =
      spelled displayAddress params := by
    unfold makeScriptMeta spelled
    rw [hparams, List.map_map]
    rfl
  -- the arguments are read in the loose way, and vectors of booleans are not read at all
  have hrun : Yields run fun y => ∃ values, (.VectorBool ∉ types ∧
      Fills cr (Denotes cr false) types args values) ∧
      y = (signers params, types.length, values) := by
    have hyields := prepareArguments_yields cr displayAddress args params
    rw [← hspelled] at hyields
    refine hyields.congr fun y => ?_
    simp only [reads_iff]
    exact Iff.rfl
  have hvalue : ∀ {values}, Fills cr (Denotes cr true) types args values →
      (Settles run (result (.ok (signers params, types.length, values))) ↔
        .VectorBool ∉ types) := by
    intro values hvalues
    rw [hrun.settles_iff]
    constructor
    · rintro ⟨_, h, -⟩
      exact h.1
    · intro hbools
      exact ⟨values, ⟨hbools, hvalues.mono fun t _ arg v hv => hv.loose⟩, rfl⟩
  have herror : (∃ e, Settles run (result (.error e))) ↔
      .VectorBool ∈ types ∨ ¬∃ values, Fills cr (Denotes cr false) types args values := by
    constructor
    · rintro ⟨e, he⟩
      by_contra hno
      obtain ⟨hbools, values, hvalues⟩ := not_or.mp hno |>.imp_right not_not.mp
      have hok := hrun.settles_iff.mpr ⟨values, ⟨hbools, hvalues⟩, rfl⟩
      cases Option.some.inj (he.unique hok)
    · intro h
      refine hrun.fails ?_
      rintro _ ⟨values, ⟨hbools, hvalues⟩, rfl⟩
      rcases h with hmem | hnone
      · exact hbools hmem
      · exact hnone ⟨values, hvalues⟩
  refine and_congr ?_ (imp_congr_right fun _ => herror)
  refine forall_congr' fun values => imp_congr_right fun _ => ?_
  exact forall_congr' fun hvalues => hvalue hvalues

end

def plainCrates : ArgumentCrates :=
  ⟨plainParser, Ss58.polkaCrates, AccountAddresses.hexCrate 16, Hex.decode⟩

/-- `script { fun main(parameters) { } }` -/
def mainWith (parameters : List (String × Typ)) : Script where
  uses := []
  constants := []
  function := ⟨"main", ⟨[], parameters, .Unit⟩, .Defined (.mk [] [] none)⟩

theorem signerThenNumber_encoded :
    Settles (fun fuel => prepareArguments plainCrates ["60".toList] fuel
        (makeScriptMeta (fun _ => []) (mainWith
          [("account", ParamType.Signer.typ), ("val", (ParamType.Value .U64).typ)])).parameters)
      (result (.ok (1, 1, [.U64 60]))) := by
  have hnumber : Decimal.IsNumber 64 "60".toList 60 := numberFromStr_iff.mp rfl
  have h := (arguments_encoded_iff (fun _ => []) (mainWith
      [("account", ParamType.Signer.typ), ("val", (ParamType.Value .U64).typ)])
    [("account", .Signer), ("val", .Value .U64)] rfl plainCrates ["60".toList]).mpr ⟨?_, ?_⟩
  · exact h.1 [.U64 60] rfl (.cons ⟨60, hnumber, rfl⟩ (.nil []))
  · intro _ _ _
    decide
  · intro hnone
    exact absurd ⟨_, .cons ⟨60, hnumber, rfl⟩ (.nil [])⟩ hnone

/-- The vector is written as documented. -/
theorem booleans_refused :
    ¬∀ values, Fills plainCrates (Denotes plainCrates true) [.VectorBool]
        ["[true, false]".toList] values →
      Settles (fun fuel => prepareArguments plainCrates ["[true, false]".toList] fuel
          (makeScriptMeta (fun _ => [])
            (mainWith [("flags", (ParamType.Value .VectorBool).typ)])).parameters)
        (result (.ok (0, 1, values))) := by
  intro h
  have hfills : Fills plainCrates (Denotes plainCrates true) [.VectorBool]
      ["[true, false]".toList] [.VectorBool [true, false]] := by
    refine .cons ⟨[true, false], ?_, rfl⟩ (.nil [])
    exact ⟨⟨.LBracket, "[".toList⟩, [⟨.IdentifierValue, "true".toList⟩, ⟨.Comma, ",".toList⟩,
      ⟨.IdentifierValue, "false".toList⟩], ⟨.RBracket, "]".toList⟩, [], rfl, rfl, rfl, by decide,
      .cons rfl (.cons rfl .nil), fun _ => ⟨rfl, rfl, rfl⟩⟩
  have hrefused : Settles (fun fuel => prepareArguments plainCrates ["[true, false]".toList] fuel
      (makeScriptMeta (fun _ => [])
        (mainWith [("flags", (ParamType.Value .VectorBool).typ)])).parameters)
      (result (.error "Unexpected script parameter: vector<bool>")) := ⟨0, fun _ _ => rfl⟩
  cases Option.some.inj ((h _ hfills).unique hrefused)

end MoveTools.Dove
