import Mathlib.Algebra.Order.BigOperators.Group.List
import MoveTools.Compat.HeaderOrder

namespace MoveTools.Compat
open Splice

/-! `adapt` in builds with other address lengths. -/

/-- How addresses get a length: bytes are inserted, and all old ones stay. -/
structure Lengthening (addrLen : ℕ) where
  apply : Address LIBRA_ADDR_LEN → Address addrLen
  keeps : ∀ a : Address LIBRA_ADDR_LEN, a.1.Sublist (apply a).1

section
variable {addrLen : ℕ} (f : Lengthening addrLen)

def lengthenedConstant (c : Constant LIBRA_ADDR_LEN) : RawConstant :=
  match c with
  | ⟨.Address, a⟩ => (.Address, (f.apply a).1)
  | c => c.raw

def lengthenedTable : Table LIBRA_ADDR_LEN → RawTable
  | .addressIdentifiers as =>
    (TableType.ADDRESS_IDENTIFIERS, Codec.writeAll (Codec.chunk addrLen) (as.map f.apply))
  | .constantPool cs =>
    (TableType.CONSTANT_POOL, rawConstantCodec.writeAll (cs.map (lengthenedConstant f)))
  | .other kind contents _ _ => (kind, contents)

/-- The headers of the longer tables. What comes later in their order is moved by as much as the
tables before got longer. -/
def lengthenedHeaders : ℕ → List (Placed LIBRA_ADDR_LEN) → List TableHeader
  | _, [] => []
  | added, x :: hs =>
    (x.2.raw.1, x.1 + added, (lengthenedTable f x.2).2.length) ::
      lengthenedHeaders (added + ((lengthenedTable f x.2).2.length - x.2.raw.2.length)) hs

end

/-- Every address has `addrLen` bytes, and the sizes, lengths and offsets count the bytes that are
there. -/
def Accounted (addrLen : ℕ) (M : CompiledUnit LIBRA_ADDR_LEN) (hs : List (Placed LIBRA_ADDR_LEN))
    (bytes : List UInt8) : Prop :=
  ∃ f : Lengthening addrLen,
    bytes = M.binary (lengthenedHeaders f 0 hs) (M.tables.map (lengthenedTable f))

/-- The lengths for which the crate can be built. -/
def addressLengths : List ℕ := [16, 20, 32]

def HeadersFit (addrLen : ℕ) (hs : List (Placed LIBRA_ADDR_LEN)) : Prop :=
  ∀ before x after, hs = before ++ x :: after →
    x.1 + (before.map fun y => tableGrowth addrLen y.2).sum < 2 ^ 32 ∧
      x.2.raw.2.length + tableGrowth addrLen x.2 < 2 ^ 32

section
variable {addrLen : ℕ} (f : Lengthening addrLen)

theorem lengthenedConstant_length (hlo : 16 ≤ addrLen) (hhi : addrLen ≤ 32)
    (c : Constant LIBRA_ADDR_LEN) :
    (rawConstantCodec.write (lengthenedConstant f c)).length =
      (rawConstantCodec.write c.raw).length + constantGrowth addrLen c.raw := by
  obtain ⟨t, v⟩ := c
  cases t with
  | Address =>
    have hnew : (f.apply v).1.length = addrLen := (f.apply v).2
    have hold : v.1.length = 16 := v.2
    have hraw : Constant.raw ⟨.Address, v⟩ = (.Address, v.1) := rfl
    have hgrowth : constantGrowth addrLen (.Address, v.1) = addrLen - 16 := if_pos rfl
    rw [hraw, hgrowth, lengthenedConstant, rawConstant_write, rawConstant_write]
    simp only [List.length_append, hnew, hold, Uleb.write_small (show addrLen < 128 by omega),
      Uleb.write_small (show 16 < 128 by omega), List.length_singleton]
    omega
  | _ => rfl

theorem lengthenedTable_length (hlo : 16 ≤ addrLen) (hhi : addrLen ≤ 32)
    (t : Table LIBRA_ADDR_LEN) :
    (lengthenedTable f t).2.length = t.raw.2.length + tableGrowth addrLen t := by
  cases t with
  | addressIdentifiers as =>
    have hold := addresses_length as
    have hnew := addresses_length (as.map f.apply)
    rw [List.length_map] at hnew
    rw [lengthenedTable, tableGrowth, insertions, Table.raw, hold, hnew, addressGrowth,
      ← Nat.mul_add]
    congr 1
    simp only [LIBRA_ADDR_LEN]
    omega
  | constantPool cs =>
    have hpool : (rawConstantCodec.writeAll (cs.map (lengthenedConstant f))).length =
        (rawConstantCodec.writeAll (cs.map Constant.raw)).length +
          ((cs.map Constant.raw).filter fun c => c.1 = .Address).length * addressGrowth addrLen := by
      induction cs with
      | nil => simp
      | cons c cs ih =>
        have hc := lengthenedConstant_length f hlo hhi c
        rw [List.map_cons, List.map_cons, poolGrowth_cons, Codec.writeAll_cons, Codec.writeAll_cons,
          List.length_append, List.length_append, ih, hc]
        omega
    exact hpool
  | other kind contents _ _ => simp [lengthenedTable, Table.raw, tableGrowth, insertions]

end

theorem constantPieces_length {addrLen : ℕ} (hhi : addrLen ≤ 32) {c : RawConstant}
    (h : c.1 = .Address → c.2.length = LIBRA_ADDR_LEN) :
    (targetText (constantPieces addrLen c)).length =
      (rawConstantCodec.write c).length + if c.1 = .Address then 4 else 0 := by
  by_cases ht : c.1 = .Address
  · have hlen : c.2.length = 16 := h ht
    have hsum : 16 + addressGrowth addrLen < 128 := by
      simp only [addressGrowth, LIBRA_ADDR_LEN]
      omega
    simp [constantPieces, ht, rawConstant_write, hlen, Uleb.write_small hsum,
      Uleb.write_small (show 16 < 128 by omega)]
  · simp [constantPieces, ht]

theorem insertedTable_length {addrLen : ℕ} (hhi : addrLen ≤ 32) (t : Table LIBRA_ADDR_LEN) :
    (insertedTable addrLen t).2.length = t.raw.2.length + insertions t * 4 := by
  cases t with
  | addressIdentifiers as =>
    have hsame : insertedTable addrLen (.addressIdentifiers as) =
        adaptedTable (.addressIdentifiers as) := insertedTable_eq (.addressIdentifiers as)
    rw [hsame, adaptedTable_length]
    rfl
  | constantPool cs =>
    have hpool : (targetText ((cs.map Constant.raw).flatMap (constantPieces addrLen))).length =
        (rawConstantCodec.writeAll (cs.map Constant.raw)).length +
          ((cs.map Constant.raw).filter fun c => c.1 = .Address).length * 4 := by
      induction cs with
      | nil => simp
      | cons c cs ih =>
        have hc := constantPieces_length hhi (constant_address_length c)
        rw [List.map_cons, List.flatMap_cons, targetText_append, List.length_append, ih, hc,
          Codec.writeAll_cons, List.length_append]
        by_cases ht : c.raw.1 = .Address
        · simp [ht]
          ring
        · simp [ht]
          ring
    exact hpool
  | other kind contents _ _ => simp [insertedTable, tablePieces, Table.raw, insertions]

section
variable {addrLen : ℕ} {M : CompiledUnit LIBRA_ADDR_LEN} {hs : List (Placed LIBRA_ADDR_LEN)}

def CompiledUnit.insertions (M : CompiledUnit LIBRA_ADDR_LEN) : ℕ :=
  (M.tables.map MoveTools.Compat.insertions).sum

theorem lengthenedHeaders_length (f : Lengthening addrLen) (added : ℕ) :
    (lengthenedHeaders f added hs).length = hs.length := by
  induction hs generalizing added with
  | nil => rfl
  | cons x hs ih => simp [lengthenedHeaders, ih]

theorem contents_lengthened (hlo : 16 ≤ addrLen) (hhi : addrLen ≤ 32) (f : Lengthening addrLen)
    (ts : List (Table LIBRA_ADDR_LEN)) :
    (contents (ts.map (lengthenedTable f))).length = (contents (ts.map Table.raw)).length +
        (ts.map insertions).sum * addressGrowth addrLen ∧
      (contents (ts.map (insertedTable addrLen))).length = (contents (ts.map Table.raw)).length +
        (ts.map insertions).sum * 4 := by
  induction ts with
  | nil => simp [contents]
  | cons t ts ih =>
    obtain ⟨ih, ih'⟩ := ih
    have hlong := lengthenedTable_length f hlo hhi t
    have hinserted := insertedTable_length hhi t
    rw [tableGrowth] at hlong
    simp only [contents, List.map_cons, List.flatMap_cons, List.length_append, List.sum_cons,
      Nat.add_mul] at ih ih' ⊢
    omega

/-- The recorded headers are the exact ones as long as they fit. -/
theorem recordedHeaders_eq_lengthened_iff (hlo : 16 ≤ addrLen) (hhi : addrLen ≤ 32)
    (f : Lengthening addrLen) (added : ℕ)
    (hbounds : ∀ x ∈ hs, x.1 < 2 ^ 32 ∧ x.2.raw.2.length < 2 ^ 32) :
    recordedHeaders addrLen added hs = lengthenedHeaders f added hs ↔
      ∀ before x after, hs = before ++ x :: after →
        x.1 + (added + (before.map fun y => tableGrowth addrLen y.2).sum) < 2 ^ 32 ∧
          x.2.raw.2.length + tableGrowth addrLen x.2 < 2 ^ 32 := by
  induction hs generalizing added with
  | nil => exact ⟨fun _ _ _ _ h => absurd h (by simp), fun _ => rfl⟩
  | cons y hs ih =>
    have hgrowth : (lengthenedTable f y.2).2.length - y.2.raw.2.length = tableGrowth addrLen y.2 := by
      rw [lengthenedTable_length f hlo hhi]
      omega
    obtain ⟨hoffset, hlength⟩ := hbounds y List.mem_cons_self
    -- both numbers of the first header, and behind it the rest with what it has added
    have hfirst : recordedHeader addrLen added y =
        (y.2.raw.1, y.1 + added, (lengthenedTable f y.2).2.length) ↔
          y.1 + added < 2 ^ 32 ∧ y.2.raw.2.length + tableGrowth addrLen y.2 < 2 ^ 32 := by
      rw [recordedHeader, lengthenedTable_length f hlo hhi, Prod.mk.injEq, Prod.mk.injEq,
        recorded_eq_iff hoffset, recorded_eq_iff hlength]
      exact and_iff_right rfl
    rw [recordedHeaders, lengthenedHeaders, List.cons.injEq, hfirst, hgrowth,
      ih _ fun x hx => hbounds x (List.mem_cons_of_mem y hx)]
    constructor
    · intro h before x after hsplit
      cases before with
      | nil =>
        obtain ⟨rfl, rfl⟩ := List.cons.inj hsplit
        simpa using h.1
      | cons z before =>
        obtain ⟨rfl, hrest⟩ := List.cons.inj hsplit
        rw [List.map_cons, List.sum_cons, ← Nat.add_assoc added]
        exact h.2 before x after hrest
    · intro h
      refine ⟨by simpa using h [] y hs rfl, fun before x after hsplit => ?_⟩
      have hx := h (y :: before) x after (congrArg (y :: ·) hsplit)
      rwa [List.map_cons, List.sum_cons, ← Nat.add_assoc added] at hx

theorem headersFit_iff (hlo : 16 ≤ addrLen) (hhi : addrLen ≤ 32) (f : Lengthening addrLen)
    (hbounds : ∀ x ∈ hs, x.1 < 2 ^ 32 ∧ x.2.raw.2.length < 2 ^ 32) :
    recordedHeaders addrLen 0 hs = lengthenedHeaders f 0 hs ↔ HeadersFit addrLen hs := by
  rw [recordedHeaders_eq_lengthened_iff hlo hhi f 0 hbounds]
  simp only [Nat.zero_add, HeadersFit]

def zeroLengthening (hlo : 16 ≤ addrLen) : Lengthening addrLen where
  apply a := ⟨List.replicate (addrLen - 16) 0 ++ a.1, by
    rw [List.length_append, List.length_replicate, a.2]
    exact Nat.sub_add_cancel hlo⟩
  keeps a := List.sublist_append_right _ _

theorem zeroLengthening_dfinance (h : 16 ≤ DFIN_ADDR_LEN) :
    (zeroLengthening h).apply = widen := by
  funext a
  exact Subtype.ext rfl

theorem insertedTable_dfinance (h : 16 ≤ DFIN_ADDR_LEN) (t : Table LIBRA_ADDR_LEN) :
    insertedTable DFIN_ADDR_LEN t = lengthenedTable (zeroLengthening h) t := by
  rw [insertedTable_eq]
  cases t with
  | addressIdentifiers as => rw [adaptedTable, lengthenedTable, zeroLengthening_dfinance]
  | constantPool cs =>
    rw [adaptedTable, lengthenedTable, List.map_map]
    congr 2
    apply List.map_congr_left
    intro c _
    obtain ⟨t, v⟩ := c
    cases t with
    | Address => rfl
    | _ => rfl
  | other kind contents _ _ => rfl

theorem insertedTable_none (f : Lengthening addrLen) {t : Table LIBRA_ADDR_LEN}
    (h : insertions t = 0) : insertedTable addrLen t = lengthenedTable f t := by
  cases t with
  | addressIdentifiers as =>
    obtain rfl := List.length_eq_zero_iff.mp h
    rfl
  | constantPool cs =>
    have hnone : ∀ c ∈ cs, c.raw.1 ≠ .Address := by
      intro c hc haddress
      have hmem : c.raw ∈ (cs.map Constant.raw).filter fun c => c.1 = .Address :=
        List.mem_filter.mpr ⟨List.mem_map_of_mem hc, decide_eq_true haddress⟩
      rw [List.length_eq_zero_iff.mp h] at hmem
      cases hmem
    have hraw : cs.map (lengthenedConstant f) = cs.map Constant.raw := by
      apply List.map_congr_left
      intro c hc
      have := hnone c hc
      obtain ⟨t, v⟩ := c
      cases t with
      | Address => exact absurd rfl this
      | _ => rfl
    have hpieces : targetText ((cs.map Constant.raw).flatMap (constantPieces addrLen)) =
        rawConstantCodec.writeAll (cs.map Constant.raw) := by
      rw [targetText_flatMap, Codec.writeAll, List.flatMap_map, List.flatMap_map]
      apply List.flatMap_congr
      intro c hc
      simp [constantPieces, hnone c hc]
    rw [lengthenedTable, hraw]
    exact Prod.ext rfl hpieces
  | other kind contents _ _ => simp [insertedTable, tablePieces, lengthenedTable, Table.raw]

theorem inserted_lengthened (hlo : 16 ≤ addrLen)
    (h : addrLen = 20 ∨ M.insertions = 0) :
    M.tables.map (insertedTable addrLen) = M.tables.map (lengthenedTable (zeroLengthening hlo)) := by
  apply List.map_congr_left
  intro t ht
  rcases h with rfl | h
  · exact insertedTable_dfinance hlo t
  · apply insertedTable_none
    have hle : insertions t ≤ M.insertions := List.le_sum_of_mem (List.mem_map_of_mem ht)
    omega

theorem accounted_iff (hL : addrLen ∈ addressLengths) (hperm : hs.Perm (place 0 M.tables))
    (hsmall : (M.serializeWith hs).length < 2 ^ 32) :
    Accounted addrLen M hs (M.inserted addrLen hs) ↔
      (addrLen = 20 ∨ M.insertions = 0) ∧ HeadersFit addrLen hs := by
  have hlengths : addrLen = 16 ∨ addrLen = 20 ∨ addrLen = 32 := by simpa [addressLengths] using hL
  have hlo : 16 ≤ addrLen := by omega
  have hhi : addrLen ≤ 32 := by omega
  have hbounds : ∀ x ∈ hs, x.1 < 2 ^ 32 ∧ x.2.raw.2.length < 2 ^ 32 := by
    intro x hx
    have hend := place_end (hperm.mem_iff.mp hx)
    simp only [CompiledUnit.serializeWith, CompiledUnit.binary, List.length_append] at hsmall
    exact ⟨by omega, by omega⟩
  have hcount : hs.length = M.tables.length := hperm.length_eq.trans (place_length _ _)
  rw [CompiledUnit.inserted]
  constructor
  · intro h
    obtain ⟨f, hbytes⟩ := h
    obtain ⟨hheaders, hcontents⟩ := binary_inj ((recordedHeaders_length _ _ _).trans hcount)
      ((lengthenedHeaders_length f 0).trans hcount) hbytes
    refine ⟨?_, (headersFit_iff hlo hhi f hbounds).mp hheaders⟩
    obtain ⟨hlong, hinserted⟩ := contents_lengthened hlo hhi f M.tables
    -- four bytes were inserted for each address, `addrLen - 16` are accounted for
    have hgrowth : M.insertions * 4 = M.insertions * (addrLen - 16) := by
      rw [hcontents, hlong] at hinserted
      exact (Nat.add_left_cancel hinserted).symm
    rcases Nat.eq_zero_or_pos M.insertions with hnone | hsome
    · exact Or.inr hnone
    · have := Nat.eq_of_mul_eq_mul_left hsome hgrowth
      exact Or.inl (by omega)
  · intro h
    obtain ⟨hfour, hfit⟩ := h
    refine ⟨zeroLengthening hlo, ?_⟩
    rw [inserted_lengthened hlo hfour, (headersFit_iff hlo hhi _ hbounds).mpr hfit]

/-- What `adapt` inserts is what it accounts for exactly if addresses become 20 bytes long or there
are none. -/
theorem adapt_accounts_iff {vm : Vm} {limits : Limits} (hvm : vm.FollowsFormat limits)
    (hL : addrLen ∈ addressLengths) (M : CompiledUnit LIBRA_ADDR_LEN)
    (hs : List (Placed LIBRA_ADDR_LEN)) (hlimits : M.withinLimits limits = true)
    (hperm : hs.Perm (place 0 M.tables)) (hsmall : (M.serializeWith hs).length < 2 ^ 32) {fuel : ℕ}
    (hfuel : (M.serializeWith hs).length ≤ fuel) :
    (∃ bytes, adaptFor vm addrLen fuel (M.serializeWith hs) = .ok bytes ∧
        Accounted addrLen M hs bytes) ↔
      (addrLen = 20 ∨ M.insertions = 0) ∧ HeadersFit addrLen hs := by
  have hhi : addrLen ≤ 32 := by
    have : addrLen = 16 ∨ addrLen = 20 ∨ addrLen = 32 := by simpa [addressLengths] using hL
    omega
  have hadapt : adaptFor vm addrLen fuel (M.serializeWith hs) = .ok (M.inserted addrLen hs) :=
    adaptFor_serializeWith hvm hhi hperm (CompiledUnit.loadable hlimits) hfuel hsmall
  rw [← accounted_iff hL hperm hsmall, hadapt]
  constructor
  · intro h
    obtain ⟨bytes, hbytes, haccounted⟩ := h
    exact Except.ok.inj hbytes ▸ haccounted
  · intro h
    exact ⟨_, rfl, h⟩

end

theorem threeTables_accounted : ∃ bytes,
    adaptFor libraVm 20 100 (threeTables.serializeWith listedInOrder) = .ok bytes ∧
      Accounted 20 threeTables listedInOrder bytes := by
  have hsmall : (threeTables.serializeWith listedInOrder).length < 2 ^ 32 := by decide +kernel
  apply (adapt_accounts_iff libraVm_followsFormat (by decide) threeTables listedInOrder
    (by decide +kernel) (.refl _) hsmall (by decide +kernel)).mpr
  refine ⟨Or.inl rfl, ?_⟩
  have hbounds : ∀ x ∈ listedInOrder, x.1 < 2 ^ 32 ∧ x.2.raw.2.length < 2 ^ 32 := by
    decide +kernel
  apply (headersFit_iff (by decide) (by decide) (zeroLengthening (by decide)) hbounds).mp
  decide +kernel

/-- In a build with addresses of 16 bytes `adapt` inserts four bytes all the same. -/
theorem adapt_libra_address_broken :
    ¬∃ bytes, adaptFor libraVm 16 100 (threeTables.serializeWith listedInOrder) = .ok bytes ∧
      Accounted 16 threeTables listedInOrder bytes := by
  have hsmall : (threeTables.serializeWith listedInOrder).length < 2 ^ 32 := by decide +kernel
  have hadapt : adaptFor libraVm 16 100 (threeTables.serializeWith listedInOrder) =
      .ok (threeTables.inserted 16 listedInOrder) :=
    adaptFor_serializeWith libraVm_followsFormat (by decide) (.refl _)
      (CompiledUnit.loadable (by decide +kernel)) (by decide +kernel) hsmall
  intro h
  obtain ⟨bytes, hbytes, haccounted⟩ := h
  obtain rfl := Except.ok.inj (hadapt.symm.trans hbytes)
  have hfour := ((accounted_iff (by decide) (.refl _) hsmall).mp haccounted).1
  revert hfour
  decide

end MoveTools.Compat
