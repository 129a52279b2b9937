import MoveTools.Library.Collect
import MoveTools.Library.Hex
import MoveTools.Executor.Threading

namespace MoveTools.Executor.WriteSet
open Collect KeyStore Pipeline

/-- The texts of addresses and values. An address is shortened to its first four bytes; `none` is a
value whose text cannot be built. -/
structure Display (vm : MoveVm) where
  shortStr : AccountAddress → Text
  toString : AccountAddress → Text
  formatValue : vm.Value → Option Text
  eventType : vm.Event → TypeTag
  eventData : vm.Event → vm.Value

section
variable {vm : MoveVm} (d : Display vm)

def Display.trimmed (addr : AccountAddress) : Text := (d.toString addr).dropWhile (· == '0')

def shortAddress (addr : AccountAddress) : Text :=
  "0x".toList ++ if d.shortStr addr = "00000000".toList then d.trimmed addr else d.shortStr addr

mutual

def formatStructTag : StructTag → Text
  | ⟨address, module, name, typeParams⟩ =>
    shortAddress d address ++ "::".toList ++ module ++ "::".toList ++ name ++
      formatTypeParams typeParams

def formatTypeTag : TypeTag → Text
  | .Struct s => formatStructTag s
  | .Vector ty => "Vector<".toList ++ formatTypeTag ty ++ ">".toList
  | .U8 => "U8".toList
  | .U64 => "U64".toList
  | .U128 => "U128".toList
  | .Address => "Address".toList
  | .Signer => "Signer".toList
  | .Bool => "Bool".toList

def formatTypeParams : List TypeTag → Text
  | [] => []
  | firstTy :: tys => "<".toList ++ formatTypeTag firstTy ++ formatMoreParams tys ++ ">".toList

def formatMoreParams : List TypeTag → Text
  | [] => []
  | ty :: tys => ", ".toList ++ formatTypeTag ty ++ formatMoreParams tys

end

abbrev Change (vm : MoveVm) := StructTag × Option (vm.Layout × vm.Value)

def explainChange (state : FakeRemoteCache) (addr : AccountAddress) :
    Change vm → Option (Text × ResourceChange)
  | (structTag, some (_, value)) => do
    let text ← d.formatValue value
    let operation := if (state.resources (addr, structTag)).isSome then "Changed" else "Added"
    pure (operation.toList, ⟨formatStructTag d structTag, some text⟩)
  | (structTag, none) => some ("Added".toList, ⟨formatStructTag d structTag, none⟩)

/-- `explain_effects`; effects with modules are a panic. -/
def explainEffects (effects : vm.Effects) (state : FakeRemoteCache) :
    Option ExplainedTransactionEffects :=
  if effects.modules = [] then do
    let events ← effects.events.mapM fun e => do
      let text ← d.formatValue (d.eventData e)
      pure ⟨formatTypeTag d (d.eventType e), some text⟩
    let resources ← effects.resources.mapM fun x => do
      let changes ← x.2.mapM (explainChange d state x.1)
      pure ⟨"0x".toList ++ d.trimmed x.1, changes⟩
    pure ⟨events, resources, 0⟩
  else none

/-- The line of a change says what the change did between the stores `before` and `after`. -/
structure TellsChange (before after : FakeRemoteCache) (addr : AccountAddress) (change : Change vm)
    (line : Text × ResourceChange) : Prop where
  name : line.2.name = formatStructTag d change.1
  added : line.1 = "Added".toList ↔
    before.resources (addr, change.1) = none ∧ after.resources (addr, change.1) ≠ none
  changed : line.1 = "Changed".toList ↔
    before.resources (addr, change.1) ≠ none ∧ after.resources (addr, change.1) ≠ none

/-- One line for each change, under its address. -/
def TellsTruth (before after : FakeRemoteCache) (effects : vm.Effects)
    (explained : ExplainedTransactionEffects) : Prop :=
  List.Forall₂ (fun x report => report.address = "0x".toList ++ d.trimmed x.1 ∧
    List.Forall₂ (TellsChange d before after x.1) x.2 report.changes)
    effects.resources explained.resources

end

section
variable {vm : MoveVm}

def writtenResources (resources : List (AccountAddress × List (Change vm))) :
    List (ResourceKey × Bool) :=
  resources.flatMap fun x => x.2.map fun c => ((x.1, c.1), c.2.isSome)

def IsSet (effects : vm.Effects) : Prop :=
  ((writtenResources effects.resources).map Prod.fst).Nodup

def RemovesNothing (effects : vm.Effects) : Prop :=
  ∀ x ∈ effects.resources, ∀ c ∈ x.2, c.2 ≠ none

variable {size : ℕ}

theorem serializeChanges_shape {addr : AccountAddress} {changes : List (Change vm)}
    {writes : List (Write ResourceKey Bytes)} (h : serializeChanges addr changes = some (writes, size)) :
    writes.map (fun w => (w.1, w.2.isSome)) =
      changes.map fun c => ((addr, c.1), c.2.isSome) := by
  fun_induction serializeChanges addr changes generalizing writes size with
  | case1 =>
    cases h
    rfl
  | case2 tag layout val changes ih =>
    obtain ⟨bytes, -, h⟩ := Option.bind_eq_some_iff.mp h
    obtain ⟨⟨ws, n⟩, hws, h⟩ := Option.bind_eq_some_iff.mp h
    cases h
    exact congrArg (((addr, tag), true) :: ·) (ih hws)
  | case3 tag changes ih =>
    obtain ⟨⟨ws, n⟩, hws, h⟩ := Option.bind_eq_some_iff.mp h
    cases h
    exact congrArg (((addr, tag), false) :: ·) (ih hws)

theorem serializeResources_shape {resources : List (AccountAddress × List (Change vm))}
    {writes : List (Write ResourceKey Bytes)} (h : serializeResources resources = some (writes, size)) :
    writes.map (fun w => (w.1, w.2.isSome)) = writtenResources resources := by
  fun_induction serializeResources resources generalizing writes size with
  | case1 =>
    cases h
    rfl
  | case2 addr changes rest ih =>
    obtain ⟨⟨ws, n⟩, hws, h⟩ := Option.bind_eq_some_iff.mp h
    obtain ⟨⟨more, m⟩, hmore, h⟩ := Option.bind_eq_some_iff.mp h
    cases h
    rw [List.map_append, serializeChanges_shape hws, ih hmore]
    rfl

theorem isSome_mergeEffects {effects : vm.Effects} {writes : List (Write ResourceKey Bytes)}
    (hset : IsSet effects) (hwrites : serializeEffects effects = some (writes, size))
    (store : FakeRemoteCache) {key : ResourceKey} {present : Bool}
    (h : (key, present) ∈ writtenResources effects.resources) :
    ((store.mergeEffects writes).resources key).isSome = present := by
  have hshape := serializeResources_shape hwrites
  rw [← hshape] at h
  obtain ⟨w, hw, heq⟩ := List.mem_map.mp h
  cases heq
  have hnodup : (writes.map Prod.fst).Nodup := by
    rw [IsSet, ← hshape, List.map_map] at hset
    exact hset
  rw [mergeEffects_eq]
  exact congrArg Option.isSome (putAll_of_nodup hnodup hw)

variable {d : Display vm} {before after : FakeRemoteCache}

/-- The line of a value that is written is true, and that of a removal is not. -/
theorem tellsChange_iff {addr : AccountAddress} {change : Change vm} {line : Text × ResourceChange}
    (hafter : (after.resources (addr, change.1)).isSome = change.2.isSome)
    (h : explainChange d before addr change = some line) :
    TellsChange d before after addr change line ↔ change.2 ≠ none := by
  obtain ⟨tag, val⟩ := change
  cases val with
  | none =>
    cases h
    refine ⟨fun htells => ?_, fun hne => absurd rfl hne⟩
    have hthere := (htells.added.mp rfl).2
    rw [← Option.isSome_iff_ne_none, hafter] at hthere
    cases hthere
  | some val =>
    obtain ⟨text, -, h⟩ := Option.bind_eq_some_iff.mp h
    cases h
    have hthere : after.resources (addr, tag) ≠ none := by
      rw [← Option.isSome_iff_ne_none, hafter]
      rfl
    refine ⟨fun _ => Option.some_ne_none _, fun _ => ?_⟩
    cases hbefore : before.resources (addr, tag) with
    | none => exact ⟨rfl, by simp [hbefore, hthere], by simp [hbefore]⟩
    | some bytes => exact ⟨rfl, by simp [hbefore], by simp [hbefore, hthere]⟩

/-- Only the lines of removals are wrong. -/
theorem tellsTruth_iff (d : Display vm) (effects : vm.Effects) (state store : FakeRemoteCache)
    (explained : ExplainedTransactionEffects) (writes : List (Write ResourceKey Bytes)) (size : ℕ)
    (hset : IsSet effects) (hexplain : explainEffects d effects state = some explained)
    (hwrites : serializeEffects effects = some (writes, size)) :
    TellsTruth d state (store.mergeEffects writes) effects explained ↔ RemovesNothing effects := by
  obtain ⟨-, h⟩ := Option.ite_none_right_eq_some.mp hexplain
  obtain ⟨events, -, h⟩ := Option.bind_eq_some_iff.mp h
  obtain ⟨resources, hresources, h⟩ := Option.bind_eq_some_iff.mp h
  cases h
  refine forall₂_iff_of_mapM hresources fun x hx report hreport => ?_
  obtain ⟨changes, hchanges, heq⟩ := Option.bind_eq_some_iff.mp hreport
  cases heq
  have hafter : ∀ c ∈ x.2, ((store.mergeEffects writes).resources (x.1, c.1)).isSome =
      c.2.isSome := fun c hc =>
    isSome_mergeEffects hset hwrites store (List.mem_flatMap.mpr ⟨x, hx, List.mem_map_of_mem hc⟩)
  rw [and_iff_right rfl]
  exact forall₂_iff_of_mapM hchanges fun c hc _ hline => tellsChange_iff (hafter c hc) hline

end

def blockDisplay : Display blockVm where
  shortStr addr := (Hex.ofNat 32 addr).take 8
  toString := Hex.ofNat 32
  formatValue _ := some []
  eventType _ := .Bool
  eventData _ := ()

def timeEffects (val : Option (Unit × Unit)) : blockVm.Effects :=
  ⟨[], [(1, [(timeMetadata, val)])], []⟩

def timeReport (operation : String) (val : Option Text) : ExplainedTransactionEffects :=
  ⟨[], [⟨"0x1".toList,
    [(operation.toList, ⟨"0x1::Time::CurrentTimestamp".toList, val⟩)]⟩], 0⟩

def timeStore : FakeRemoteCache := ⟨fun _ => none, fun _ => some []⟩

theorem tellsTruth_iff_time :
    TellsTruth blockDisplay timeStore (timeStore.mergeEffects [((1, timeMetadata), some [])])
        (timeEffects (some ((), ()))) (timeReport "Changed" (some [])) ↔
      RemovesNothing (timeEffects (some ((), ()))) :=
  tellsTruth_iff _ _ _ _ _ _ 0 (by simp [IsSet, writtenResources, timeEffects]) (by rfl) rfl

/-- The removal of a resource is reported as an addition. -/
theorem removal_added :
    explainEffects blockDisplay (timeEffects none) timeStore = some (timeReport "Added" none) ∧
      serializeEffects (timeEffects none) = some ([((1, timeMetadata), none)], 0) ∧
      ¬TellsTruth blockDisplay timeStore (timeStore.mergeEffects [((1, timeMetadata), none)])
        (timeEffects none) (timeReport "Added" none) := by
  refine ⟨by rfl, rfl, fun h => ?_⟩
  cases h with
  | cons hreport _ =>
    cases hreport.2 with
    | cons htells _ =>
      have hgone : (timeStore.mergeEffects [((1, timeMetadata), none)]).resources
          (1, timeMetadata) = none := by
        simp [FakeRemoteCache.mergeEffects, FakeRemoteCache.remove]
      exact (htells.added.mp rfl).2 hgone

end MoveTools.Executor.WriteSet
