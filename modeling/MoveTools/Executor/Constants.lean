import MoveTools.Library.Decimal
import MoveTools.Syntax.Ast
import MoveTools.Executor.WriteSet

namespace MoveTools.Executor.Constants
open Syntax KeyStore WriteSet

/-- What is called of `move_lang::shared::Address`: all addresses have as many bytes, and different
ones are displayed differently. -/
structure Addresses where
  length : ℕ
  display : Address → Text
  toU8 : AccountAddress → Address
  length_toU8 : ∀ a, (toU8 a).length = length
  display_inj : ∀ {a b}, a.length = length → b.length = length → display a = display b → a = b

/-- `ast::Program`, with addresses that the parser can make. -/
structure Program (addresses : Addresses) where
  sourceDefinitions : List Definition
  libDefinitions : List Definition
  addresses_length : ∀ address modules,
    .Address address modules ∈ sourceDefinitions ++ libDefinitions →
      address.length = addresses.length

def extractIntegerConstantValue (constant : Constant) : Option ℕ :=
  match constant.value with
  | .Value (.U8 num) => some num
  | .Value (.U64 num) => some num
  | .Value (.U128 num) => some num
  | .InferredNum val => some val
  | _ => none

def constants (module : ModuleDefinition) : List Constant :=
  module.members.filterMap fun
    | .Constant c => some c
    | _ => none

section
variable (addresses : Addresses)

def extractConstant (address moduleName : Text) (consts : ConstsMap) (constant : Constant) :
    ConstsMap :=
  if "ERR_".toList.isPrefixOf constant.name.toList then
    match extractIntegerConstantValue constant with
    | some val => put consts ((address, moduleName, val), some constant.name.toList)
    | none => consts
  else consts

def extractConstantsFromModule (address : Address) (consts : ConstsMap)
    (module : ModuleDefinition) : ConstsMap :=
  (constants module).foldl
    (extractConstant (addresses.display address) module.name.toList) consts

def extractErrorConstants (program : Program addresses) (consts : ConstsMap) : ConstsMap :=
  (program.sourceDefinitions ++ program.libDefinitions).foldl (fun consts definition =>
    match definition with
    | .Address address modules =>
      modules.foldl (extractConstantsFromModule addresses address) consts
    | _ => consts) consts

/-- The map of a session: `after_parsing` fills an empty one. -/
def sessionConsts (program : Program addresses) : ConstsMap :=
  extractErrorConstants addresses program fun _ => none

end

section
variable {vm : MoveVm} (d : Display vm) (addresses : Addresses)

def abortText (id : ModuleId) (error : Text) : Text :=
  "Execution aborted with code ".toList ++ (error ++ (" in module ".toList ++
    (shortAddress d id.address ++ ("::".toList ++ (id.name ++ ".".toList)))))

def namedCode (errorCode : ℕ) (name : Text) : Text :=
  Decimal.display errorCode ++ (": ".toList ++ name)

/-- `none` stands for `unreachable!`. -/
def explainAbort (vmStatus : VMStatus) (constsMap : ConstsMap) : Option Text :=
  match vmStatus with
  | .MoveAbort (.Module id) errorCode =>
    let constKey := (addresses.display (addresses.toU8 id.address), id.name, errorCode)
    let error := match constsMap constKey with
      | some name => namedCode errorCode name
      | none => Decimal.display errorCode
    some (abortText d id error)
  | .MoveAbort .Script errorCode =>
    some ("Execution aborted with code ".toList ++ Decimal.display errorCode ++
      " in transaction script".toList)
  | _ => none

end

/-- An integer literal. -/
inductive IsInteger : Exp → ℕ → Prop
  | u8 (n : ℕ) : IsInteger (.Value (.U8 n)) n
  | u64 (n : ℕ) : IsInteger (.Value (.U64 n)) n
  | u128 (n : ℕ) : IsInteger (.Value (.U128 n)) n
  | inferred (n : ℕ) : IsInteger (.InferredNum n) n

/-- The module declares an `ERR_` integer constant of this name and value. -/
def HasConstant (module : ModuleDefinition) (name : Text) (c : ℕ) : Prop :=
  ∃ constant, .Constant constant ∈ module.members ∧ constant.name.toList = name ∧
    "ERR_".toList <+: name ∧ IsInteger constant.value c

section
variable {addresses : Addresses} (program : Program addresses)

/-- Module `id` is declared in an address block. -/
def InBlock (id : ModuleId) (module : ModuleDefinition) : Prop :=
  module.name.toList = id.name ∧
    ∃ modules, .Address (addresses.toU8 id.address) modules ∈
      program.sourceDefinitions ++ program.libDefinitions ∧ module ∈ modules

/-- Module `id` is declared at top level, which puts it under the address of the sender. -/
def AtTopLevel (sender : Address) (id : ModuleId) (module : ModuleDefinition) : Prop :=
  module.name.toList = id.name ∧ addresses.toU8 id.address = sender ∧
    .Module module ∈ program.sourceDefinitions ++ program.libDefinitions

def Declares (sender : Address) (id : ModuleId) (name : Text) (c : ℕ) : Prop :=
  ∃ module, (InBlock program id module ∨ AtTopLevel program sender id module) ∧
    HasConstant module name c

/-- An abort in module `id` is explained with a name just where the module declares one for the
code, and with one of its own. -/
structure Explained {vm : MoveVm} (d : Display vm) (sender : Address) (id : ModuleId)
    (code : ℕ) (text : Text) : Prop where
  named_iff : (∃ name, text = abortText d id (namedCode code name)) ↔
    ∃ name, Declares program sender id name code
  own : ∀ name, text = abortText d id (namedCode code name) →
    Declares program sender id name code

end

theorem extractIntegerConstantValue_eq_some {constant : Constant} {n : ℕ} :
    extractIntegerConstantValue constant = some n ↔ IsInteger constant.value n := by
  unfold extractIntegerConstantValue
  constructor
  · intro h
    split at h
    · cases h
      rw [‹constant.value = _›]
      exact .u8 n
    · cases h
      rw [‹constant.value = _›]
      exact .u64 n
    · cases h
      rw [‹constant.value = _›]
      exact .u128 n
    · cases h
      rw [‹constant.value = _›]
      exact .inferred n
    · cases h
  · intro h
    generalize constant.value = value at h
    cases h <;> rfl

theorem mem_constants {module : ModuleDefinition} {constant : Constant} :
    constant ∈ constants module ↔ .Constant constant ∈ module.members := by
  rw [constants, List.mem_filterMap]
  constructor
  · rintro ⟨m, hm, h⟩
    cases m with
    | Constant c =>
      cases h
      exact hm
    | Function _ | Struct _ | Use _ | Spec => cases h
  · exact fun h => ⟨_, h, rfl⟩

abbrev ConstWrite := Write (Text × Text × ℕ) Text

def constantWrites (address moduleName : Text) (constant : Constant) : List ConstWrite :=
  if "ERR_".toList.isPrefixOf constant.name.toList then
    (extractIntegerConstantValue constant).toList.map fun val =>
      ((address, moduleName, val), some constant.name.toList)
  else []

section
variable (addresses : Addresses)

def moduleWrites (address : Address) (module : ModuleDefinition) : List ConstWrite :=
  (constants module).flatMap (constantWrites (addresses.display address) module.name.toList)

def definitionWrites : Definition → List ConstWrite
  | .Address address modules => modules.flatMap (moduleWrites addresses address)
  | _ => []

theorem extractConstant_eq (address moduleName : Text) (consts : ConstsMap) (constant : Constant) :
    extractConstant address moduleName consts constant =
      putAll consts (constantWrites address moduleName constant) := by
  unfold extractConstant constantWrites
  split
  · cases extractIntegerConstantValue constant <;> rfl
  · rfl

theorem extractConstantsFromModule_eq (address : Address) (consts : ConstsMap)
    (module : ModuleDefinition) :
    extractConstantsFromModule addresses address consts module =
      putAll consts (moduleWrites addresses address module) :=
  foldl_putAll _ (extractConstant_eq _ _) _ _

theorem extractErrorConstants_eq (program : Program addresses) (consts : ConstsMap) :
    extractErrorConstants addresses program consts =
      putAll consts ((program.sourceDefinitions ++ program.libDefinitions).flatMap
        (definitionWrites addresses)) := by
  apply foldl_putAll
  intro consts definition
  cases definition with
  | Module module => rfl
  | Address address modules =>
    exact foldl_putAll _ (extractConstantsFromModule_eq addresses address) modules consts
  | Script script => rfl

theorem mem_definitionWrites {definition : Definition} {w : ConstWrite} :
    w ∈ definitionWrites addresses definition ↔ ∃ address modules module constant val,
      definition = .Address address modules ∧ module ∈ modules ∧
        .Constant constant ∈ module.members ∧ "ERR_".toList <+: constant.name.toList ∧
          IsInteger constant.value val ∧
            w = ((addresses.display address, module.name.toList, val),
              some constant.name.toList) := by
  cases definition with
  | Module module => simp [definitionWrites]
  | Script script => simp [definitionWrites]
  | Address address modules =>
    simp only [definitionWrites, moduleWrites, List.mem_flatMap, constantWrites, mem_constants,
      List.isPrefixOf_iff_prefix]
    constructor
    · rintro ⟨module, hmodule, constant, hconstant, hw⟩
      split at hw
      · obtain ⟨val, hval, rfl⟩ := List.mem_map.mp hw
        exact ⟨address, modules, module, constant, val, rfl, hmodule, hconstant, ‹_›,
          extractIntegerConstantValue_eq_some.mp (by simpa using hval), rfl⟩
      · cases hw
    · rintro ⟨_, _, module, constant, val, ⟨⟩, hmodule, hconstant, herr, hval, rfl⟩
      refine ⟨module, hmodule, constant, hconstant, ?_⟩
      rw [if_pos herr, extractIntegerConstantValue_eq_some.mpr hval]
      exact List.mem_singleton_self _

variable {addresses} {program : Program addresses} {id : ModuleId} {code : ℕ} {name : Text}

/-- The key that `explain_abort` reads. -/
def constKey (addresses : Addresses) (id : ModuleId) (code : ℕ) : Text × Text × ℕ :=
  (addresses.display (addresses.toU8 id.address), id.name, code)

/-- Both sides format one address alike, so the writes to a key are the constants of the module. -/
theorem mem_programWrites {v : Option Text} :
    (constKey addresses id code, v) ∈ (program.sourceDefinitions ++ program.libDefinitions).flatMap
        (definitionWrites addresses) ↔
      ∃ module name, InBlock program id module ∧ HasConstant module name code ∧ v = some name := by
  simp only [List.mem_flatMap, mem_definitionWrites]
  constructor
  · rintro ⟨_, hdefinition, address, modules, module, constant, val, rfl, hmodule, hconstant, herr,
      hval, heq⟩
    obtain ⟨hkey, rfl⟩ := Prod.mk.inj heq
    obtain ⟨haddress, hrest⟩ := Prod.mk.inj hkey
    obtain ⟨hname, rfl⟩ := Prod.mk.inj hrest
    obtain rfl := addresses.display_inj (addresses.length_toU8 _)
      (program.addresses_length _ _ hdefinition) haddress
    exact ⟨module, _, ⟨hname.symm, modules, hdefinition, hmodule⟩,
      ⟨constant, hconstant, rfl, herr, hval⟩, rfl⟩
  · rintro ⟨module, _, ⟨hname, modules, hdefinition, hmodule⟩,
      ⟨constant, hconstant, rfl, herr, hval⟩, rfl⟩
    exact ⟨_, hdefinition, _, modules, module, constant, code, rfl, hmodule, hconstant, herr, hval,
      by rw [constKey, hname]⟩

theorem sessionConsts_eq_some (h : sessionConsts addresses program (constKey addresses id code) =
    some name) : ∃ module, InBlock program id module ∧ HasConstant module name code := by
  rw [sessionConsts, extractErrorConstants_eq, putAll_eq] at h
  cases hlast : last ((program.sourceDefinitions ++ program.libDefinitions).flatMap
      (definitionWrites addresses)) (constKey addresses id code) with
  | none =>
    rw [hlast] at h
    cases h
  | some v =>
    rw [hlast] at h
    obtain ⟨module, name', hblock, hconstant, hv⟩ := mem_programWrites.mp (mem_of_last hlast)
    obtain rfl : name' = name := Option.some.inj (hv.symm.trans h)
    exact ⟨module, hblock, hconstant⟩

theorem sessionConsts_eq_none (h : sessionConsts addresses program (constKey addresses id code) =
    none) (module : ModuleDefinition) (hblock : InBlock program id module) :
    ¬HasConstant module name code := by
  intro hconstant
  rw [sessionConsts, extractErrorConstants_eq, putAll_eq] at h
  cases hlast : last ((program.sourceDefinitions ++ program.libDefinitions).flatMap
      (definitionWrites addresses)) (constKey addresses id code) with
  | none =>
    exact last_eq_none.mp hlast _
      (mem_programWrites.mpr ⟨module, name, hblock, hconstant, rfl⟩) rfl
  | some v =>
    -- what is written is always a name
    obtain ⟨-, name', -, -, rfl⟩ := mem_programWrites.mp (mem_of_last hlast)
    rw [hlast] at h
    cases h

end

section
variable {vm : MoveVm} {d : Display vm} {id : ModuleId} {code : ℕ} {name name' : Text}

theorem abortText_inj {error error' : Text} (h : abortText d id error = abortText d id error') :
    error = error' :=
  List.append_cancel_right (List.append_cancel_left h)

theorem namedCode_inj (h : namedCode code name = namedCode code name') : name = name' :=
  List.append_cancel_left (List.append_cancel_left h)

theorem namedCode_ne : namedCode code name ≠ Decimal.display code := by
  intro h
  have hlen := congrArg List.length h
  simp [namedCode] at hlen

end

section
variable {vm : MoveVm} (d : Display vm) {addresses : Addresses} (program : Program addresses)
  (sender : Address) (id : ModuleId) (code : ℕ)

theorem explainAbort_module (consts : ConstsMap) :
    explainAbort d addresses (.MoveAbort (.Module id) code) consts =
      some (abortText d id (match consts (constKey addresses id code) with
        | some name => namedCode code name
        | none => Decimal.display code)) := rfl

/-- Only modules in address blocks are looked at, so the name is missing where just a module at top
level declares it. -/
theorem aborts_named_iff :
    (∃ text, explainAbort d addresses (.MoveAbort (.Module id) code)
        (sessionConsts addresses program) = some text ∧
      Explained program d sender id code text) ↔
    ((∃ module name, AtTopLevel program sender id module ∧ HasConstant module name code) →
      ∃ module name, InBlock program id module ∧ HasConstant module name code) := by
  rw [explainAbort_module]
  simp only [Option.some.injEq, exists_eq_left']
  cases h : sessionConsts addresses program (constKey addresses id code) with
  | some name =>
    obtain ⟨module, hblock, hconstant⟩ := sessionConsts_eq_some h
    have hdeclares : Declares program sender id name code := ⟨module, .inl hblock, hconstant⟩
    refine iff_of_true ⟨iff_of_true ⟨name, rfl⟩ ⟨name, hdeclares⟩, fun name' hname => ?_⟩
      fun _ => ⟨module, name, hblock, hconstant⟩
    rwa [← namedCode_inj (abortText_inj hname)]
  | none =>
    have hplain : ∀ name, abortText d id (Decimal.display code) ≠
        abortText d id (namedCode code name) := fun name heq =>
      namedCode_ne (abortText_inj heq).symm
    constructor
    · rintro ⟨hnamed, -⟩ ⟨module, name, htop, hconstant⟩
      obtain ⟨name', hname⟩ := hnamed.mpr ⟨name, module, .inr htop, hconstant⟩
      exact absurd hname (hplain name')
    · intro htop
      refine ⟨iff_of_false (fun ⟨name, hname⟩ => hplain name hname) ?_, fun name hname =>
        absurd hname (hplain name)⟩
      rintro ⟨name, module, hblock | hmodule, hconstant⟩
      · exact sessionConsts_eq_none h module hblock hconstant
      · obtain ⟨module', name', hblock, hconstant'⟩ := htop ⟨module, name, hmodule, hconstant⟩
        exact sessionConsts_eq_none h module' hblock hconstant'

end

def toBytes : ℕ → ℕ → Address
  | 0, _ => []
  | n + 1, a => toBytes n (a / 256) ++ [UInt8.ofNat a]

@[simp] theorem toBytes_length (n a : ℕ) : (toBytes n a).length = n := by
  induction n generalizing a with
  | zero => rfl
  | succ n ih => rw [toBytes, List.length_append, ih, List.length_singleton]

def hexDigits (address : Address) : Text := Hex.encodeUpper (address.map UInt8.toNat)

def displayTrimmed (address : Address) : Text :=
  let dropped := (hexDigits address).dropWhile (· == '0')
  "0x".toList ++ if dropped = [] then ['0'] else dropped

theorem hexDigits_injective {a b : Address} (h : hexDigits a = hexDigits b) : a = b := by
  have hbytes : ∀ address : Address, ∀ n ∈ address.map UInt8.toNat, n < 256 := by
    intro address n hn
    obtain ⟨byte, -, rfl⟩ := List.mem_map.mp hn
    exact byte.toNat_lt
  have hmap := Hex.encodeUpper_injective (hbytes a) (hbytes b) h
  exact (List.map_injective_iff.mpr fun _ _ => UInt8.toNat_inj.mp) hmap

theorem dropWhile_ne_zero (s : Text) : s.dropWhile (· == '0') ≠ ['0'] := by
  intro h
  have hhead := List.head_dropWhile_not (· == '0') (l := s) (by simp [h])
  simp [h] at hhead

theorem displayTrimmed_injective {a b : Address} (hlen : a.length = b.length)
    (h : displayTrimmed a = displayTrimmed b) : a = b := by
  apply hexDigits_injective
  apply Hex.eq_of_dropWhile_eq
  · rw [hexDigits, hexDigits, Hex.encodeUpper_length, Hex.encodeUpper_length, List.length_map,
      List.length_map, hlen]
  · have hdigits := List.append_cancel_left h
    split at hdigits
    · split at hdigits
      · simp only [*]
      · exact absurd hdigits.symm (dropWhile_ne_zero _)
    · split at hdigits
      · exact absurd hdigits (dropWhile_ne_zero _)
      · exact hdigits

def sixteenBytes : Addresses where
  length := 16
  display := displayTrimmed
  toU8 := toBytes 16
  length_toU8 := toBytes_length 16
  display_inj ha hb := displayTrimmed_injective (ha.trans hb.symm)

/-- `module Record { const ERR_DOES_NOT_EXIST: u64 = 101; }` -/
def topLevelRecord : ModuleDefinition where
  name := "Record"
  members := [.Constant ⟨"ERR_DOES_NOT_EXIST", .Apply (.Name "u64") [], .InferredNum 101⟩]

def topLevelProgram : Program sixteenBytes where
  sourceDefinitions := [.Module topLevelRecord]
  libDefinitions := []
  addresses_length _ _ h := by simp at h

theorem topLevel_unnamed :
    ¬∃ text, explainAbort blockDisplay sixteenBytes (.MoveAbort (.Module ⟨2, "Record".toList⟩) 101)
        (sessionConsts sixteenBytes topLevelProgram) = some text ∧
      Explained topLevelProgram blockDisplay (toBytes 16 2) ⟨2, "Record".toList⟩ 101 text := by
  rintro ⟨text, htext, hnamed, -⟩
  obtain rfl : abortText blockDisplay ⟨2, "Record".toList⟩ (Decimal.display 101) = text :=
    Option.some.inj htext
  have hdeclares : Declares topLevelProgram (toBytes 16 2) ⟨2, "Record".toList⟩
      "ERR_DOES_NOT_EXIST".toList 101 :=
    ⟨topLevelRecord, .inr ⟨rfl, rfl, List.mem_singleton_self _⟩,
      _, List.mem_singleton_self _, rfl, by decide, .inferred 101⟩
  obtain ⟨name, hname⟩ := hnamed.mpr ⟨_, hdeclares⟩
  exact namedCode_ne (abortText_inj hname).symm

end MoveTools.Executor.Constants
