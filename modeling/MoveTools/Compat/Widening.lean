import MoveTools.Compat.Adaptation
import MoveTools.Compat.LibraVm

namespace MoveTools.Compat

/-! `adapt` against the unit it should produce: every address widened, wherever it occurs. -/

section
variable {α β γ : Type} (c : Codec α) (d : Codec β) (f : α → β)

theorem row_length_map {parts : α → List γ}
    (h : ∀ v, (d.write (f v)).length = (c.write v).length + 4 * (parts v).length) (vs : List α) :
    ((Uleb.row d).write (vs.map f)).length =
      ((Uleb.row c).write vs).length + 4 * (vs.flatMap parts).length := by
  have hall : (d.writeAll (vs.map f)).length =
      (c.writeAll vs).length + 4 * (vs.flatMap parts).length := by
    induction vs with
    | nil => rfl
    | cons v vs ih =>
      rw [List.map_cons, Codec.writeAll_cons, Codec.writeAll_cons, List.length_append,
        List.length_append, List.flatMap_cons, List.length_append, ih, h v]
      omega
  rw [Uleb.row_write, Uleb.row_write, List.length_append, List.length_append, List.length_map,
    hall, Nat.add_assoc]

theorem row_write_map {vs : List α} (h : ∀ v ∈ vs, d.write (f v) = c.write v) :
    (Uleb.row d).write (vs.map f) = (Uleb.row c).write vs := by
  have hall : d.writeAll (vs.map f) = c.writeAll vs := by
    rw [Codec.writeAll, Codec.writeAll, List.flatMap_map]
    exact List.flatMap_congr h
  rw [Uleb.row_write, Uleb.row_write, List.length_map, hall]

end

theorem Value.length_map_widen (t : ConstantType) (v : Value LIBRA_ADDR_LEN t) :
    ((valueCodec DFIN_ADDR_LEN t).write (Value.map widen t v)).length =
      ((valueCodec LIBRA_ADDR_LEN t).write v).length + 4 * (Value.addresses t v).length := by
  induction t with
  | Address =>
    change (zeros ++ v.1).length = v.1.length + 4
    rw [List.length_append, Nat.add_comm]
    rfl
  | Vector element ih => exact row_length_map _ _ _ ih v
  | _ => rfl

theorem Value.write_map_widen (t : ConstantType) (v : Value LIBRA_ADDR_LEN t)
    (h : Value.addresses t v = []) :
    (valueCodec DFIN_ADDR_LEN t).write (Value.map widen t v) =
      (valueCodec LIBRA_ADDR_LEN t).write v := by
  induction t with
  | Address => exact absurd h (List.cons_ne_nil _ _)
  | Vector element ih =>
    exact row_write_map _ _ _ fun u hu => ih u (List.flatMap_eq_nil_iff.mp h u hu)
  | _ => rfl

/-- The constant is an address, or it has none. -/
def Constant.Flat {w : ℕ} (c : Constant w) : Prop := c.1 = .Address ∨ c.addresses = []

theorem adaptedConstant_eq_iff (c : Constant LIBRA_ADDR_LEN) :
    adaptedConstant c.raw = (c.map widen).raw ↔ c.Flat := by
  obtain ⟨t, v⟩ := c
  by_cases ht : t = .Address
  · subst ht
    exact ⟨fun _ => .inl rfl, fun _ => rfl⟩
  · have hraw : adaptedConstant (Constant.raw ⟨t, v⟩) = (t, (valueCodec LIBRA_ADDR_LEN t).write v) :=
      congrArg (Prod.mk t) (if_neg ht)
    rw [hraw]
    constructor
    · intro h
      have hlen := Value.length_map_widen t v
      have hdata : (valueCodec LIBRA_ADDR_LEN t).write v =
          (valueCodec DFIN_ADDR_LEN t).write (Value.map widen t v) := congrArg Prod.snd h
      rw [← hdata] at hlen
      have hnone : (Value.addresses t v).length = 0 := by omega
      exact .inr (List.length_eq_zero_iff.mp hnone)
    · rintro (h | h)
      · exact absurd h ht
      · exact congrArg (Prod.mk t) (Value.write_map_widen t v h).symm

theorem adaptedConstant_length_le (c : Constant LIBRA_ADDR_LEN) :
    (adaptedConstant c.raw).2.length ≤ (c.map widen).raw.2.length := by
  obtain ⟨t, v⟩ := c
  have hlen := Value.length_map_widen t v
  by_cases ht : t = .Address
  · subst ht
    exact le_rfl
  · have hraw : (adaptedConstant (Constant.raw ⟨t, v⟩)).2 = (valueCodec LIBRA_ADDR_LEN t).write v :=
      if_neg ht
    rw [hraw]
    exact (Nat.le_add_right _ _).trans (le_of_eq hlen.symm)

theorem adaptedTable_eq_iff (t : Table LIBRA_ADDR_LEN) :
    adaptedTable t = (t.map widen).raw ↔ ∀ c ∈ t.constants, c.Flat := by
  cases t with
  | addressIdentifiers as => exact ⟨fun _ c hc => absurd hc (List.not_mem_nil), fun _ => rfl⟩
  | other kind bytes _ _ => exact ⟨fun _ c hc => absurd hc (List.not_mem_nil), fun _ => rfl⟩
  | constantPool cs =>
    constructor
    · intro h c hc
      have hall := rawConstantCodec.writeAll_inj rawConstant_ne_nil (congrArg Prod.snd h)
      rw [List.map_map, List.map_map] at hall
      exact (adaptedConstant_eq_iff c).mp (List.map_inj_left.mp hall c hc)
    · intro h
      have hall : (cs.map Constant.raw).map adaptedConstant =
          (cs.map (Constant.map widen)).map Constant.raw := by
        rw [List.map_map, List.map_map]
        exact List.map_congr_left fun c hc => (adaptedConstant_eq_iff c).mpr (h c hc)
      exact congrArg (fun rs => (TableType.CONSTANT_POOL, rawConstantCodec.writeAll rs)) hall

theorem adaptedPool_length_le (cs : List (Constant LIBRA_ADDR_LEN)) :
    (rawConstantCodec.writeAll ((cs.map Constant.raw).map adaptedConstant)).length ≤
      (rawConstantCodec.writeAll ((cs.map (Constant.map widen)).map Constant.raw)).length := by
  induction cs with
  | nil => exact le_rfl
  | cons c cs ih =>
    have hc := adaptedConstant_length_le c
    have hsize := Uleb.length_write_mono hc
    have htype : (adaptedConstant c.raw).1 = (c.map widen).raw.1 := rfl
    simp only [List.map_cons, Codec.writeAll_cons, List.length_append, rawConstant_write,
      htype] at ih ⊢
    omega

theorem notShorter_widened (ts : List (Table LIBRA_ADDR_LEN)) :
    NotShorter (ts.map adaptedTable) ((ts.map (Table.map widen)).map Table.raw) := by
  induction ts with
  | nil => exact .nil
  | cons t ts ih =>
    refine .cons ?_ ih
    cases t with
    | addressIdentifiers as => exact ⟨rfl, le_rfl⟩
    | constantPool cs => exact ⟨rfl, adaptedPool_length_le cs⟩
    | other kind bytes _ _ => exact ⟨rfl, le_rfl⟩

namespace CompiledUnit
variable {M : CompiledUnit LIBRA_ADDR_LEN}

theorem adapted_length_le : M.adapted.length ≤ (M.map widen).serialize.length := by
  have := (notShorter_widened M.tables).binary_le
  simp only [adapted, serialize, map, List.length_append]
  omega

theorem adapted_eq_iff : M.adapted = (M.map widen).serialize ↔ ∀ c ∈ M.constants, c.Flat := by
  have hconstants : (∀ c ∈ M.constants, c.Flat) ↔ ∀ t ∈ M.tables, ∀ c ∈ t.constants, c.Flat := by
    simp only [constants, List.mem_flatMap]
    exact ⟨fun h t ht c hc => h c ⟨t, ht, hc⟩, fun h c ⟨t, ht, hc⟩ => h t ht c hc⟩
  rw [hconstants]
  constructor
  · intro h t ht
    have htables := (tablesCodec.write_append_inj h).1
    simp only [map, List.map_map] at htables
    exact (adaptedTable_eq_iff t).mp (List.map_inj_left.mp htables t ht)
  · intro h
    have htables : M.tables.map adaptedTable = (M.map widen).tables.map Table.raw := by
      simp only [map, List.map_map]
      exact List.map_congr_left fun t ht => (adaptedTable_eq_iff t).mpr (h t ht)
    rw [adapted, htables]
    rfl

theorem withinLimits_iff {w : ℕ} {limits : Limits} {N : CompiledUnit w} :
    N.withinLimits limits = true ↔ ∀ c ∈ N.constants,
      c.1.depth ≤ limits.signatureTokenDepthMax ∧ c.raw.2.length ≤ limits.constantSizeMax := by
  simp [withinLimits]

theorem constants_map {w w' : ℕ} (f : Address w → Address w') (N : CompiledUnit w) :
    (N.map f).constants = N.constants.map (Constant.map f) := by
  rw [constants, constants, map, List.flatMap_map, List.map_flatMap]
  apply congrArg (List.flatMap · N.tables)
  funext t
  cases t <;> rfl

theorem withinLimits_widen {limits : Limits} (hmax : DFIN_ADDR_LEN ≤ limits.constantSizeMax)
    (hflat : ∀ c ∈ M.constants, c.Flat) (h : M.withinLimits limits = true) :
    (M.map widen).withinLimits limits = true := by
  rw [withinLimits_iff] at h ⊢
  rw [constants_map]
  intro d hd
  obtain ⟨c, hc, rfl⟩ := List.mem_map.mp hd
  obtain ⟨hdepth, hsize⟩ := h c hc
  refine ⟨hdepth, ?_⟩
  rcases hflat c hc with ht | hn
  · have := constant_address_length (c.map widen) ht
    rw [this]
    exact hmax
  · have hlen := Value.length_map_widen c.1 c.2
    rw [show Value.addresses c.1 c.2 = [] from hn] at hlen
    exact (le_of_eq hlen).trans hsize

theorem loadable {limits : Limits} (h : M.withinLimits limits = true) :
    ∀ t ∈ M.tables, t.Loadable limits := by
  intro t ht c hc
  exact withinLimits_iff.mp h c (List.mem_flatMap.mpr ⟨t, ht, hc⟩)

end CompiledUnit

/-- The binary that `adapt` leaves decodes to the unit with all addresses widened exactly when no
vector constant has an address in it, as long as the wider binary is addressable at all. -/
theorem adapt_widens_iff {vm : Vm} {limits : Limits} (hvm : vm.FollowsFormat limits)
    (M : CompiledUnit LIBRA_ADDR_LEN) (hM : M.withinLimits limits = true) {fuel : ℕ}
    (hfuel : M.serialize.length ≤ fuel) :
    (∃ bytes, adapt vm fuel M.serialize = .ok bytes ∧
        CompiledUnit.deserialize limits DFIN_ADDR_LEN bytes = some (M.map widen)) ↔
      (∀ c ∈ M.constants, c.Flat) ∧ (M.map widen).serialize.length < 2 ^ 32 := by
  have hw : 0 < DFIN_ADDR_LEN := by decide
  have hload := CompiledUnit.loadable hM
  constructor
  · rintro ⟨bytes, hadapt, hdecode⟩
    obtain ⟨rfl, -, hsmall⟩ := (CompiledUnit.deserialize_iff hw).mp hdecode
    have hsmall' := CompiledUnit.adapted_length_le.trans_lt hsmall
    rw [adapt_serialize hvm hload hfuel hsmall'] at hadapt
    exact ⟨CompiledUnit.adapted_eq_iff.mp (by simpa using hadapt), hsmall⟩
  · rintro ⟨hflat, hsmall⟩
    have hsmall' := CompiledUnit.adapted_length_le.trans_lt hsmall
    refine ⟨M.adapted, adapt_serialize hvm hload hfuel hsmall', ?_⟩
    rw [CompiledUnit.deserialize_iff hw, CompiledUnit.adapted_eq_iff.mpr hflat]
    exact ⟨rfl, CompiledUnit.withinLimits_widen hvm.constant_size_max hflat hM, hsmall⟩

def oneAddress : Address LIBRA_ADDR_LEN := ⟨List.replicate 15 0 ++ [1], rfl⟩

/-- A module with an address, constants `0x1` and `x"07"`, and an empty vector of addresses. -/
def flatUnit : CompiledUnit LIBRA_ADDR_LEN where
  tables :=
    [.other 1 [0, 0] (by decide) (by decide),
      .constantPool [⟨.Address, oneAddress⟩, ⟨.Vector .U8, ([7] : List UInt8)⟩,
        ⟨.Vector .Address, ([] : List (Address LIBRA_ADDR_LEN))⟩],
      .addressIdentifiers [oneAddress]]
  trailing := [0]

theorem adapt_widens_flatUnit : ∃ bytes, adapt libraVm 100 flatUnit.serialize = .ok bytes ∧
    CompiledUnit.deserialize libraLimits DFIN_ADDR_LEN bytes = some (flatUnit.map widen) := by
  refine (adapt_widens_iff libraVm_followsFormat flatUnit (by decide +kernel)
    (by decide +kernel)).mpr ⟨?_, by decide +kernel⟩
  intro c hc
  simp only [flatUnit, CompiledUnit.constants, List.flatMap_cons, Table.constants, List.nil_append,
    List.flatMap_nil, List.append_nil, List.mem_cons, List.not_mem_nil, or_false] at hc
  rcases hc with rfl | rfl | rfl
  · exact .inl rfl
  · exact .inr rfl
  · exact .inr rfl

def vectorUnit : CompiledUnit LIBRA_ADDR_LEN where
  tables := [.constantPool [⟨.Vector .Address, ([oneAddress] : List (Address LIBRA_ADDR_LEN))⟩]]
  trailing := [0]

/-- It is returned as it came, and no unit with the wider addresses decodes from it. -/
theorem vectorUnit_unchanged :
    adapt libraVm 100 vectorUnit.serialize = .ok vectorUnit.serialize ∧
      ¬∃ bytes, adapt libraVm 100 vectorUnit.serialize = .ok bytes ∧
        CompiledUnit.deserialize libraLimits DFIN_ADDR_LEN bytes = some (vectorUnit.map widen) := by
  have hadapt : adapt libraVm 100 vectorUnit.serialize = .ok vectorUnit.serialize :=
    adapt_serialize libraVm_followsFormat (CompiledUnit.loadable (by decide +kernel))
      (by decide +kernel) (by decide +kernel)
  refine ⟨hadapt, ?_⟩
  rintro ⟨bytes, h, hdecode⟩
  obtain rfl : vectorUnit.serialize = bytes := by simpa [hadapt] using h
  have hnone : (CompiledUnit.deserialize libraLimits DFIN_ADDR_LEN vectorUnit.serialize).isNone =
      true := by decide +kernel
  rw [hdecode] at hnone
  cases hnone

end MoveTools.Compat
