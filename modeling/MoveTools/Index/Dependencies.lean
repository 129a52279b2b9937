import MoveTools.Disassembler.UseList
import MoveTools.Index.ChainCache
import MoveTools.Index.Imports

namespace MoveTools.Index.Dependencies
open Collect Effects ChainCache
open Disassembler (CompiledModule ModuleHandle)

def ofHandle (h : ModuleHandle) : ModuleId := ⟨h.address, h.name⟩

/-- One of the other modules that the module has a handle of. -/
def IsDependency (m : CompiledModule) (k : ModuleId) : Prop :=
  (∃ h ∈ m.moduleHandles, ofHandle h = k) ∧ k ≠ ofHandle m.selfId

/-- A recursion that only stops at `target`. -/
def probe (target : ModuleId) : ModuleId → Program Unit := fun k =>
  if k = target then throw .outOfFuel else pure ()

section
variable (w : World) (depsDir url : Text) (moduleId : ModuleId) (s : State)

/-- Nothing but the probe runs out of fuel. -/
def RecursesInto (target : ModuleId) : Prop :=
  ∃ s', loadModule w depsDir (probe target) url moduleId s = .error .outOfFuel s'

/-- The dependencies that are extracted, those that the disassembler imports, and those that
`load_tree` is called for are the other modules that the module has handles of. -/
structure DependenciesExact (bytecode : Bytes) (m : CompiledModule) : Prop where
  extracted : ∃ imports, extractBytecodeDependencies w bytecode = .ok imports ∧
    ∀ k, k ∈ imports ↔ IsDependency m k
  imported : ∀ k : ModuleId,
    ((Disassembler.Module.new m).imports.getImport k.address k.name).isSome ↔ IsDependency m k
  loaded : ∀ k, RecursesInto w depsDir url moduleId s k ↔ IsDependency m k

end

section
variable {w : World} {ids : Identifiers} {m : CompiledModule} {bytecode : Bytes}

theorem extract_collects (ids : Identifiers) (handles : List ModuleHandle) :
    Collects (Imports.Valid ids)
      (forM handles fun h => insertImport ids ⟨h.address, h.name⟩) (handles.map ofHandle) := by
  induction handles with
  | nil => exact .pure
  | cons h handles ih =>
    rw [List.forM_cons]
    exact (Imports.insertImport_collects ⟨h.address, h.name⟩).seq ih

theorem extracted_iff (hm : w.deserializeModule bytecode = .ok m)
    (hvalid : ∀ h ∈ m.moduleHandles, w.ids.isValid h.name) :
    ∃ imports, extractBytecodeDependencies w bytecode = .ok imports ∧
      ∀ k, k ∈ imports ↔ ∃ h ∈ m.moduleHandles.tail, ofHandle h = k := by
  have hcollects := extract_collects w.ids m.moduleHandles.tail
  have hok : ∀ k ∈ m.moduleHandles.tail.map ofHandle, Imports.Valid w.ids k := by
    intro k hk
    obtain ⟨h, hh, rfl⟩ := List.mem_map.mp hk
    exact hvalid h (List.mem_of_mem_tail hh)
  obtain ⟨imports, hrun⟩ := hcollects.succeeds hok []
  refine ⟨imports, ?_, fun k => ?_⟩
  · have hextract : (extract w.ids m).run [] = .ok ((), imports) := hrun
    simp [extractBytecodeDependencies, hm, hextract, bind, Except.bind, pure, Except.pure]
  · rw [hcollects.mem hrun, List.mem_map]
    simp only [List.not_mem_nil, false_or]

theorem imported_iff (m : CompiledModule) (k : ModuleId) :
    ((Disassembler.Module.new m).imports.getImport k.address k.name).isSome ↔
      ∃ i h, m.moduleHandles[i]? = some h ∧ i ≠ (m.selfModuleHandle : ℕ) ∧ ofHandle h = k := by
  have hbuilt := Disassembler.Imports.built_new (some m.selfModuleHandle) m.moduleHandles
  have hget : ((Disassembler.Module.new m).imports.getImport k.address k.name).isSome ↔
      ⟨k.address, k.name⟩ ∈
        Disassembler.Imports.imported (some m.selfModuleHandle) m.moduleHandles := by
    rw [← Disassembler.Imports.mem_addressesOf, Option.isSome_iff_ne_none,
      ← not_iff_not, not_not, ← Disassembler.Imports.importAt_eq_none, ← hbuilt.getImport_eq]
    rfl
  rw [hget]
  simp only [Disassembler.Imports.imported, List.mem_map, List.mem_filter, Prod.exists,
    List.mem_zipIdx_iff_getElem?, decide_eq_true_eq]
  constructor
  · rintro ⟨h, i, ⟨hi, hne⟩, rfl⟩
    exact ⟨i, _, hi, fun he => hne (congrArg some he), rfl⟩
  · rintro ⟨i, h, hi, hne, rfl⟩
    exact ⟨h, i, ⟨hi, fun he => hne (Option.some.inj he)⟩, rfl⟩

theorem forM_probe (target : ModuleId) (modules : List ModuleId) (s : State) :
    forM modules (probe target) s =
      if target ∈ modules then .error .outOfFuel s else .ok () s := by
  induction modules with
  | nil => rfl
  | cons k modules ih =>
    rw [List.forM_cons]
    by_cases hk : k = target
    · have hprobe : probe target k s = .error .outOfFuel s := by
        rw [probe, if_pos hk]
        rfl
      rw [bind_error hprobe, if_pos (hk ▸ List.mem_cons_self)]
    · have hprobe : probe target k s = .ok () s := by
        rw [probe, if_neg hk]
        rfl
      rw [bind_ok hprobe, ih]
      simp [Ne.symm hk]

/-- `load_tree` is called for each of the dependencies that are extracted, and for no other. -/
theorem recursesInto_iff {depsDir url : Text} {moduleId : ModuleId} {s : State}
    {imports : List ModuleId} (hload : w.load s.clock url moduleId = .ok bytecode)
    (hdeps : extractBytecodeDependencies w bytecode = .ok imports)
    (hvisit : ∀ t imports, (w.visit t imports).Perm imports) (target : ModuleId) :
    RecursesInto w depsDir url moduleId s target ↔ target ∈ imports := by
  let s1 : State := { s with clock := s.clock + 1 }
  let s2 : State := { s1 with clock := s1.clock + 1 }
  have hask : ask (fun t => w.load t url moduleId) s = .ok bytecode s1 := by
    simp only [ask, hload]
    rfl
  have hlift : liftExcept (extractBytecodeDependencies w bytecode) s1 = .ok imports s1 := by
    rw [hdeps]
    rfl
  have hvisited : ask (fun t => .ok (w.visit t imports)) s1 = .ok (w.visit s1.clock imports) s2 := rfl
  unfold RecursesInto loadModule
  rw [bind_ok hask, bind_ok hlift, bind_ok hvisited, ← (hvisit s1.clock imports).mem_iff]
  have hforM := forM_probe target (w.visit s1.clock imports) s2
  split at hforM
  · rename_i hmem
    rw [bind_error hforM]
    exact ⟨fun _ => hmem, fun _ => ⟨s2, rfl⟩⟩
  · rename_i hmem
    rw [bind_ok hforM]
    refine ⟨fun ⟨s', h⟩ => ?_, fun h => absurd h hmem⟩
    have hreturns : Returns (do
        let unit ← liftExcept (unitNew w bytecode)
        ask fun t => w.writable t (makePath w depsDir moduleId)
        ChainCache.put (makePath w depsDir moduleId)
          (String.ofList unit.codeString).toByteArray.data.toList) := by
      refine (returns_liftExcept _).bind fun unit => ?_
      refine (returns_ask _).bind fun _ => ?_
      exact Triple.intro (fun _ _ _ _ _ => trivial) (fun _ _ _ _ h => by cases h)
    exact absurd rfl (hreturns.error trivial h)

theorem ofHandle_injective {h h' : ModuleHandle} (he : ofHandle h = ofHandle h') : h = h' := by
  obtain ⟨haddress, hname⟩ := ModuleId.mk.inj he
  cases h
  cases h'
  exact congrArg₂ ModuleHandle.mk haddress hname

theorem selfId_mem (m : CompiledModule) :
    m.moduleHandles[(m.selfModuleHandle : ℕ)]? = some m.selfId :=
  List.getElem?_eq_getElem m.selfModuleHandle.isLt

theorem isDependency_iff_tail (hself : (m.selfModuleHandle : ℕ) = 0)
    (hown : m.selfId ∉ m.moduleHandles.tail) (k : ModuleId) :
    IsDependency m k ↔ ∃ h ∈ m.moduleHandles.tail, ofHandle h = k := by
  have hfirst : m.selfId :: m.moduleHandles.tail = m.moduleHandles := by
    apply List.cons_head?_tail
    rw [Option.mem_def, List.head?_eq_getElem?, ← hself]
    exact selfId_mem m
  constructor
  · rintro ⟨⟨h, hh, rfl⟩, hne⟩
    rw [← hfirst] at hh
    rcases List.mem_cons.mp hh with rfl | hh
    · exact absurd rfl hne
    · exact ⟨h, hh, rfl⟩
  · rintro ⟨h, hh, rfl⟩
    refine ⟨⟨h, List.mem_of_mem_tail hh, rfl⟩, fun he => ?_⟩
    rw [ofHandle_injective he] at hh
    exact hown hh

/-- Leaving out the first handle leaves out the own one only where that is first and stands
nowhere else. -/
theorem dependenciesExact_iff (w : World) (depsDir url : Text) (moduleId : ModuleId) (s : State)
    (bytecode : Bytes) (m : CompiledModule) (hload : w.load s.clock url moduleId = .ok bytecode)
    (hm : w.deserializeModule bytecode = .ok m)
    (hvalid : ∀ h ∈ m.moduleHandles, w.ids.isValid h.name)
    (hvisit : ∀ t imports, (w.visit t imports).Perm imports) :
    DependenciesExact w depsDir url moduleId s bytecode m ↔
      (m.selfModuleHandle : ℕ) = 0 ∧ m.selfId ∉ m.moduleHandles.tail := by
  obtain ⟨imports, hdeps, hmem⟩ := extracted_iff hm hvalid
  constructor
  · intro h
    obtain ⟨imports', hdeps', hexact⟩ := h.extracted
    cases hdeps.symm.trans hdeps'
    have hown : m.selfId ∉ m.moduleHandles.tail := by
      intro hown
      exact ((hexact _).mp ((hmem _).mpr ⟨_, hown, rfl⟩)).2 rfl
    refine ⟨?_, hown⟩
    -- the module's own handle would stand in the tail otherwise
    by_contra hne
    obtain ⟨i, hi⟩ := Nat.exists_eq_add_one_of_ne_zero hne
    apply hown
    have hat := selfId_mem m
    rw [hi, ← List.getElem?_tail] at hat
    exact List.mem_of_getElem? hat
  · rintro ⟨hself, hown⟩
    have htail := isDependency_iff_tail hself hown
    have hexact : ∀ k, k ∈ imports ↔ IsDependency m k := fun k =>
      (hmem k).trans (htail k).symm
    refine ⟨⟨imports, hdeps, hexact⟩, fun k => ?_, fun k => ?_⟩
    · rw [imported_iff, htail, hself]
      constructor
      · rintro ⟨i, h, hi, hne, rfl⟩
        obtain ⟨j, rfl⟩ := Nat.exists_eq_add_one_of_ne_zero hne
        rw [← List.getElem?_tail] at hi
        exact ⟨h, List.mem_of_getElem? hi, rfl⟩
      · rintro ⟨h, hh, rfl⟩
        obtain ⟨j, hj⟩ := List.mem_iff_getElem?.mp hh
        rw [List.getElem?_tail] at hj
        exact ⟨j + 1, h, hj, Nat.succ_ne_zero j, rfl⟩
    · rw [recursesInto_iff hload hdeps hvisit]
      exact hexact k

end

theorem dependenciesExact_iff_moduleM :
    DependenciesExact twoModules ".deps".toList [] idM emptyCache bytecodeM moduleM ↔
      (moduleM.selfModuleHandle : ℕ) = 0 ∧ moduleM.selfId ∉ moduleM.moduleHandles.tail :=
  dependenciesExact_iff _ _ _ _ _ _ _ rfl rfl (fun _ _ => rfl) (fun _ _ => .refl _)

/-- `M`, with the handle of `N` in front of its own. -/
def lateM : CompiledModule where
  moduleHandles := [⟨idN.address, idN.name⟩, ⟨idM.address, idM.name⟩]
  selfModuleHandle := 1
  structs := []
  functions := []

/-- As the bytecode of `M`, with the names in the other order and the index 1 at the end. -/
def bytecodeLate : Bytes :=
  [0xA1, 0x1C, 0xEB, 0x0B, 1, 0, 0, 0, 3, 1, 0, 4, 7, 4, 4, 8, 8, 20, 0, 0, 0, 1, 1, 78, 1, 77] ++
    idM.address ++ [1]

def lateWorld : World := { twoModules with
  deserializeModule := fun bytecode =>
    if bytecode = bytecodeLate then .ok lateM else .error "BAD_MAGIC"
  load := fun _ _ m => if m = idM then .ok bytecodeLate else .error "not found" }

/-- `M` depends on `N`, and `load_tree` is called for `M` instead. -/
theorem lateM_recurses :
    extractBytecodeDependencies lateWorld bytecodeLate = .ok [idM] ∧ IsDependency lateM idN ∧
      RecursesInto lateWorld ".deps".toList [] idM emptyCache idM ∧
      ¬DependenciesExact lateWorld ".deps".toList [] idM emptyCache bytecodeLate lateM := by
  refine ⟨rfl, ⟨⟨_, List.mem_cons_self, rfl⟩, by decide⟩, ⟨_, rfl⟩, fun h => ?_⟩
  obtain ⟨imports, hdeps, hexact⟩ := h.extracted
  cases hdeps
  have hN := (hexact idN).mpr ⟨⟨_, List.mem_cons_self, rfl⟩, by decide⟩
  exact absurd (List.mem_singleton.mp hN) (by decide)

end MoveTools.Index.Dependencies
