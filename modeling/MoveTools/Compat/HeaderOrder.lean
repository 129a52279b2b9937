import MoveTools.Compat.Widening
import MoveTools.Library.Collect

namespace MoveTools.Compat

/-! `adapt` on binaries that list the headers of their tables in any order. -/

def growthOf (hs : List (Placed LIBRA_ADDR_LEN)) : ℕ :=
  (hs.map fun x => tableGrowth DFIN_ADDR_LEN x.2).sum

@[simp] theorem growthOf_cons (x : Placed LIBRA_ADDR_LEN) (hs : List (Placed LIBRA_ADDR_LEN)) :
    growthOf (x :: hs) = tableGrowth DFIN_ADDR_LEN x.2 + growthOf hs := by
  simp [growthOf]

def growthBelow (hs : List (Placed LIBRA_ADDR_LEN)) (x : Placed LIBRA_ADDR_LEN) : ℕ :=
  growthOf (hs.filter fun y => y.1 < x.1)

/-- The loader takes a unit without empty tables, and without two tables of one kind. -/
structure CompiledUnit.Valid (M : CompiledUnit LIBRA_ADDR_LEN) : Prop where
  nonempty : ∀ t ∈ M.tables, t.raw.2 ≠ []
  kinds : (M.tables.map fun t => t.raw.1).Nodup

/-- The new headers have the kinds of the old ones, in their order, and describe the adapted tables
as they lie one behind the other from offset 0. -/
def Survives (M : CompiledUnit LIBRA_ADDR_LEN) (hs : List (Placed LIBRA_ADDR_LEN))
    (bytes : List UInt8) : Prop :=
  ∃ headers : List TableHeader, bytes = M.binary headers (M.tables.map adaptedTable) ∧
    headers.map Prod.fst = hs.map (fun x => x.2.raw.1) ∧
    headers.Perm (layout 0 (M.tables.map adaptedTable))

/-- As much growth is listed before each table as lies before it, and its new offset and length are
32-bit numbers. -/
def ListedAsPlaced (M : CompiledUnit LIBRA_ADDR_LEN) (hs : List (Placed LIBRA_ADDR_LEN)) : Prop :=
  ∀ before x after, hs = before ++ x :: after →
    growthOf before = growthBelow (place 0 M.tables) x ∧ x.1 + growthOf before < 2 ^ 32 ∧
      x.2.raw.2.length + tableGrowth DFIN_ADDR_LEN x.2 < 2 ^ 32

/-- The header that a table needs if it is moved by `below`. -/
def movedHeader (below : Placed LIBRA_ADDR_LEN → ℕ) (x : Placed LIBRA_ADDR_LEN) : TableHeader :=
  (x.2.raw.1, x.1 + below x, (adaptedTable x.2).2.length)

theorem le_of_mem_place {offset : ℕ} {ts : List (Table LIBRA_ADDR_LEN)}
    {x : Placed LIBRA_ADDR_LEN} (h : x ∈ place offset ts) : offset ≤ x.1 ∧ x.2 ∈ ts := by
  induction ts generalizing offset with
  | nil => cases h
  | cons t ts ih =>
    rcases List.mem_cons.mp h with rfl | h
    · exact ⟨le_rfl, List.mem_cons_self⟩
    · obtain ⟨hle, hmem⟩ := ih h
      exact ⟨(Nat.le_add_right _ _).trans hle, List.mem_cons_of_mem t hmem⟩

theorem growthBelow_place (offset : ℕ) {t : Table LIBRA_ADDR_LEN}
    (ts : List (Table LIBRA_ADDR_LEN)) (ht : t.raw.2 ≠ []) :
    growthBelow (place offset (t :: ts)) (offset, t) = 0 ∧
      ∀ x ∈ place (offset + t.raw.2.length) ts, growthBelow (place offset (t :: ts)) x =
        tableGrowth DFIN_ADDR_LEN t + growthBelow (place (offset + t.raw.2.length) ts) x := by
  have hpos := List.length_pos_iff.mpr ht
  constructor
  · have hnone : (place offset (t :: ts)).filter (fun y => y.1 < offset) = [] := by
      apply List.filter_eq_nil_iff.mpr
      intro y hy
      have := (le_of_mem_place hy).1
      simpa using this
    exact congrArg growthOf hnone
  · intro x hx
    have hlt : offset < x.1 := by
      have := (le_of_mem_place hx).1
      omega
    rw [growthBelow, place, List.filter_cons_of_pos (by simpa using hlt)]
    rfl

theorem layout_adapted (offset added : ℕ) {ts : List (Table LIBRA_ADDR_LEN)}
    (hne : ∀ t ∈ ts, t.raw.2 ≠ []) :
    layout (offset + added) (ts.map adaptedTable) =
      (place offset ts).map (movedHeader fun x => added + growthBelow (place offset ts) x) := by
  induction ts generalizing offset added with
  | nil => rfl
  | cons t ts ih =>
    obtain ⟨hfirst, hrest⟩ := growthBelow_place offset ts
      (hne t List.mem_cons_self)
    have hnext : offset + added + (adaptedTable t).2.length =
        offset + t.raw.2.length + (added + tableGrowth DFIN_ADDR_LEN t) := by
      rw [adaptedTable_length]
      omega
    have htail : (place (offset + t.raw.2.length) ts).map
        (movedHeader fun x => added + growthBelow (place offset (t :: ts)) x) =
          (place (offset + t.raw.2.length) ts).map (movedHeader fun x =>
            added + tableGrowth DFIN_ADDR_LEN t +
              growthBelow (place (offset + t.raw.2.length) ts) x) := by
      apply List.map_congr_left
      intro x hx
      simp only [movedHeader, hrest x hx, Nat.add_assoc]
    have hhead : movedHeader (fun x => added + growthBelow (place offset (t :: ts)) x) (offset, t) =
        ((adaptedTable t).1, offset + added, (adaptedTable t).2.length) := by
      simp only [movedHeader, hfirst, Nat.add_zero, adaptedTable_kind]
    rw [List.map_cons, layout, hnext, ih _ _ fun u hu => hne u (List.mem_cons_of_mem t hu), ← htail,
      ← hhead]
    rfl

section
variable {M : CompiledUnit LIBRA_ADDR_LEN} {hs : List (Placed LIBRA_ADDR_LEN)}

theorem growthOf_perm {hs' : List (Placed LIBRA_ADDR_LEN)} (h : hs.Perm hs') :
    growthOf hs = growthOf hs' := (h.map _).sum_eq

/-- The recorded headers, one by one. -/
theorem recordedHeaders_eq_map_iff (added : ℕ) (f : Placed LIBRA_ADDR_LEN → TableHeader) :
    recordedHeaders DFIN_ADDR_LEN added hs = hs.map f ↔ ∀ before x after, hs = before ++ x :: after →
      recordedHeader DFIN_ADDR_LEN (added + growthOf before) x = f x := by
  induction hs generalizing added with
  | nil => exact ⟨fun _ _ _ _ h => absurd h (by simp), fun _ => rfl⟩
  | cons y hs ih =>
    rw [recordedHeaders, List.map_cons, List.cons.injEq, ih]
    constructor
    · intro h before x after hsplit
      cases before with
      | nil =>
        obtain ⟨rfl, rfl⟩ := List.cons.inj hsplit
        exact h.1
      | cons z before =>
        obtain ⟨rfl, hrest⟩ := List.cons.inj hsplit
        rw [growthOf_cons, ← Nat.add_assoc]
        exact h.2 before x after hrest
    · intro h
      refine ⟨h [] y hs rfl, fun before x after hsplit => ?_⟩
      rw [Nat.add_assoc, ← growthOf_cons]
      exact h (y :: before) x after (congrArg (y :: ·) hsplit)

/-- A recorded header is the one that is needed exactly if the sums are the same and fit. -/
theorem recordedHeader_eq_iff {additional below : ℕ} {x : Placed LIBRA_ADDR_LEN}
    (hadditional : additional < 2 ^ 32) (hposition : x.1 < 2 ^ 32)
    (hlength : x.2.raw.2.length < 2 ^ 32) :
    recordedHeader DFIN_ADDR_LEN additional x = movedHeader (fun _ => below) x ↔
      additional = below ∧ x.1 + additional < 2 ^ 32 ∧
        x.2.raw.2.length + tableGrowth DFIN_ADDR_LEN x.2 < 2 ^ 32 := by
  have hoffset : recorded x.1 additional = x.1 + below ↔
      additional = below ∧ x.1 + additional < 2 ^ 32 := by
    constructor
    · intro h
      have hfits : x.1 + additional < 2 ^ 32 := by
        unfold recorded addU32 at h
        split_ifs at h <;> omega
      rw [recorded_of_lt hfits] at h
      exact ⟨Nat.add_left_cancel h, hfits⟩
    · intro h
      rw [recorded_of_lt h.2, h.1]
  rw [recordedHeader, movedHeader, adaptedTable_length, Prod.mk.injEq, Prod.mk.injEq, hoffset,
    recorded_eq_iff hlength, and_assoc]
  exact and_iff_right rfl

theorem kinds_place {w : ℕ} (offset : ℕ) (ts : List (Table w)) :
    (place offset ts).map (fun x => x.2.raw.1) = ts.map fun t => t.raw.1 := by
  induction ts generalizing offset with
  | nil => rfl
  | cons t ts ih =>
    rw [place, List.map_cons, ih]
    rfl

def neededHeaders (M : CompiledUnit LIBRA_ADDR_LEN) (hs : List (Placed LIBRA_ADDR_LEN)) :
    List TableHeader :=
  hs.map (movedHeader (growthBelow (place 0 M.tables)))

theorem neededHeaders_perm (hM : M.Valid) (hperm : hs.Perm (place 0 M.tables)) :
    (neededHeaders M hs).Perm (layout 0 (M.tables.map adaptedTable)) := by
  have hlayout := layout_adapted 0 0 hM.nonempty
  simp only [Nat.add_zero, Nat.zero_add] at hlayout
  rw [hlayout]
  exact hperm.map _

theorem neededHeaders_kinds : (neededHeaders M hs).map Prod.fst = hs.map fun x => x.2.raw.1 := by
  rw [neededHeaders, List.map_map]
  rfl

/-- They are the only ones with the right kinds in the right order. -/
theorem eq_neededHeaders {headers : List TableHeader} (hM : M.Valid)
    (hperm : hs.Perm (place 0 M.tables))
    (hkinds : headers.map Prod.fst = hs.map fun x => x.2.raw.1)
    (hlayout : headers.Perm (layout 0 (M.tables.map adaptedTable))) :
    headers = neededHeaders M hs := by
  apply Collect.eq_of_perm_of_keys (hlayout.trans (neededHeaders_perm hM hperm).symm)
    (hkinds.trans neededHeaders_kinds.symm)
  rw [neededHeaders_kinds]
  have hnodup := hM.kinds
  rw [← kinds_place 0] at hnodup
  exact (hperm.map _).nodup_iff.mpr hnodup

theorem binary_inj {headers headers' : List TableHeader} {tables tables' : List RawTable}
    (hlen : headers.length = M.tables.length) (hlen' : headers'.length = M.tables.length)
    (h : M.binary headers tables = M.binary headers' tables') :
    headers = headers' ∧ contents tables = contents tables' := by
  have hrow : ∀ headers : List TableHeader, ∀ tables, headers.length = M.tables.length →
      M.binary headers tables = preamble ++ ((Uleb.row headerCodec).write headers ++
        (contents tables ++ M.trailing)) := by
    intro headers tables hl
    simp [CompiledUnit.binary, CompiledUnit.headerStart, hl]
  rw [hrow _ _ hlen, hrow _ _ hlen'] at h
  obtain ⟨hheaders, hrest⟩ := Codec.write_append_inj _ (List.append_cancel_left h)
  exact ⟨hheaders, List.append_cancel_right hrest⟩

theorem survives_iff_needed (hM : M.Valid) (hperm : hs.Perm (place 0 M.tables)) :
    Survives M hs (M.inserted DFIN_ADDR_LEN hs) ↔
      recordedHeaders DFIN_ADDR_LEN 0 hs = neededHeaders M hs := by
  have htables : M.tables.map (insertedTable DFIN_ADDR_LEN) = M.tables.map adaptedTable :=
    List.map_congr_left fun t _ => insertedTable_eq t
  have hcount : (recordedHeaders DFIN_ADDR_LEN 0 hs).length = M.tables.length :=
    (recordedHeaders_length _ _ _).trans (hperm.length_eq.trans (place_length _ _))
  rw [CompiledUnit.inserted, htables]
  constructor
  · intro h
    obtain ⟨headers, hbytes, hkinds, hlayout⟩ := h
    have hlen : headers.length = M.tables.length := by
      rw [hlayout.length_eq, layout_length, List.length_map]
    rw [(binary_inj hcount hlen hbytes).1]
    exact eq_neededHeaders hM hperm hkinds hlayout
  · intro h
    exact ⟨neededHeaders M hs, by rw [h], neededHeaders_kinds, neededHeaders_perm hM hperm⟩

theorem place_end {offset : ℕ} {ts : List (Table LIBRA_ADDR_LEN)} {x : Placed LIBRA_ADDR_LEN}
    (h : x ∈ place offset ts) :
    x.1 + x.2.raw.2.length ≤ offset + (contents (ts.map Table.raw)).length := by
  induction ts generalizing offset with
  | nil => cases h
  | cons t ts ih =>
    have hcontents : (contents ((t :: ts).map Table.raw)).length =
        t.raw.2.length + (contents (ts.map Table.raw)).length := by
      simp [contents]
    rcases List.mem_cons.mp h with rfl | h
    · simp only
      omega
    · have := ih h
      omega

theorem growthOf_prefix_le (before after : List (Placed LIBRA_ADDR_LEN)) :
    growthOf before ≤ growthOf (before ++ after) := by
  simp [growthOf]

theorem survives_iff (hM : M.Valid) (hperm : hs.Perm (place 0 M.tables))
    (hsmall : (M.serializeWith hs).length < 2 ^ 32) :
    Survives M hs (M.inserted DFIN_ADDR_LEN hs) ↔ ListedAsPlaced M hs := by
  have hcontents : (contents (M.tables.map Table.raw)).length < 2 ^ 32 := by
    simp only [CompiledUnit.serializeWith, CompiledUnit.binary, List.length_append] at hsmall
    omega
  have hbounds : ∀ before x after, hs = before ++ x :: after → growthOf before < 2 ^ 32 ∧
      x.1 < 2 ^ 32 ∧ x.2.raw.2.length < 2 ^ 32 := by
    intro before x after hsplit
    have hx : x ∈ place 0 M.tables := hperm.mem_iff.mp (by simp [hsplit])
    have hend := place_end hx
    have hprefix := growthOf_prefix_le before (x :: after)
    have htotal : growthOf hs ≤ (contents (M.tables.map Table.raw)).length := by
      rw [growthOf_perm hperm]
      exact growth_place_le (by decide) 0 M.tables
    rw [← hsplit] at hprefix
    exact ⟨by omega, by omega, by omega⟩
  rw [survives_iff_needed hM hperm, neededHeaders, recordedHeaders_eq_map_iff]
  constructor
  · intro h before x after hsplit
    obtain ⟨hgrowth, hposition, hlength⟩ := hbounds before x after hsplit
    have hx := h before x after hsplit
    rw [Nat.zero_add] at hx
    exact (recordedHeader_eq_iff hgrowth hposition hlength).mp hx
  · intro h before x after hsplit
    obtain ⟨hgrowth, hposition, hlength⟩ := hbounds before x after hsplit
    rw [Nat.zero_add]
    exact (recordedHeader_eq_iff hgrowth hposition hlength).mpr (h before x after hsplit)

/-- After `adapt` the headers describe the grown tables exactly if as much growth was listed before
each of them as lies before it. -/
theorem headers_survive_iff {vm : Vm} {limits : Limits} (hvm : vm.FollowsFormat limits)
    (M : CompiledUnit LIBRA_ADDR_LEN) (hs : List (Placed LIBRA_ADDR_LEN)) (hM : M.Valid)
    (hlimits : M.withinLimits limits = true) (hperm : hs.Perm (place 0 M.tables))
    (hsmall : (M.serializeWith hs).length < 2 ^ 32) {fuel : ℕ}
    (hfuel : (M.serializeWith hs).length ≤ fuel) :
    (∃ bytes, adapt vm fuel (M.serializeWith hs) = .ok bytes ∧ Survives M hs bytes) ↔
      ListedAsPlaced M hs := by
  have hadapt : adapt vm fuel (M.serializeWith hs) = .ok (M.inserted DFIN_ADDR_LEN hs) :=
    adaptFor_serializeWith hvm (by decide) hperm (CompiledUnit.loadable hlimits) hfuel hsmall
  rw [← survives_iff hM hperm hsmall, hadapt]
  constructor
  · intro h
    obtain ⟨bytes, hbytes, hsurvives⟩ := h
    exact Except.ok.inj hbytes ▸ hsurvives
  · intro h
    exact ⟨_, rfl, h⟩

end

theorem plainKinds {kind : UInt8} (h : kind = 1 ∨ kind = 7) :
    kind ≠ TableType.CONSTANT_POOL ∧ kind ≠ TableType.ADDRESS_IDENTIFIERS := by
  rcases h with rfl | rfl
  · decide
  · decide

def plainTable (kind : UInt8) (contents : List UInt8) (h : kind = 1 ∨ kind = 7) :
    Table LIBRA_ADDR_LEN :=
  .other kind contents (plainKinds h).1 (plainKinds h).2

def threeTables : CompiledUnit LIBRA_ADDR_LEN where
  tables := [plainTable 1 [0, 0] (.inl rfl), .addressIdentifiers [oneAddress],
    plainTable 7 [1, 77] (.inr rfl)]
  trailing := [0]

theorem threeTables_valid : threeTables.Valid where
  nonempty := by
    intro t ht
    simp only [threeTables, List.mem_cons, List.not_mem_nil, or_false] at ht
    rcases ht with rfl | rfl | rfl <;> decide
  kinds := by decide

def listedInOrder : List (Placed LIBRA_ADDR_LEN) := place 0 threeTables.tables

def listedLastFirst : List (Placed LIBRA_ADDR_LEN) := listedInOrder.drop 2 ++ listedInOrder.take 2

theorem headers_survive_inOrder : ∃ bytes,
    adapt libraVm 100 (threeTables.serializeWith listedInOrder) = .ok bytes ∧
      Survives threeTables listedInOrder bytes := by
  have hsmall : (threeTables.serializeWith listedInOrder).length < 2 ^ 32 := by decide +kernel
  refine (headers_survive_iff libraVm_followsFormat threeTables listedInOrder threeTables_valid
    (by decide +kernel) (.refl _) hsmall (by decide +kernel)).mpr ?_
  apply (survives_iff threeTables_valid (.refl _) hsmall).mp
  apply (survives_iff_needed threeTables_valid (.refl _)).mpr
  decide +kernel

theorem listedLastFirst_perm : listedLastFirst.Perm (place 0 threeTables.tables) :=
  List.perm_append_comm.trans (.of_eq (List.take_append_drop 2 listedInOrder))

/-- The table of kind 7 keeps the offset 18, though it is moved to 22. -/
theorem listedLastFirst_broken : threeTables.Valid ∧
    listedLastFirst.Perm (place 0 threeTables.tables) ∧
    ¬∃ bytes, adapt libraVm 100 (threeTables.serializeWith listedLastFirst) = .ok bytes ∧
      Survives threeTables listedLastFirst bytes := by
  refine ⟨threeTables_valid, listedLastFirst_perm, ?_⟩
  have hadapt : adapt libraVm 100 (threeTables.serializeWith listedLastFirst) =
      .ok (threeTables.inserted DFIN_ADDR_LEN listedLastFirst) :=
    adaptFor_serializeWith libraVm_followsFormat (by decide) listedLastFirst_perm
      (CompiledUnit.loadable (by decide +kernel)) (by decide +kernel) (by decide +kernel)
  intro h
  obtain ⟨bytes, hbytes, hsurvives⟩ := h
  obtain rfl := Except.ok.inj (hadapt.symm.trans hbytes)
  have hneeded := (survives_iff_needed threeTables_valid listedLastFirst_perm).mp hsurvives
  revert hneeded
  decide +kernel

end MoveTools.Compat
