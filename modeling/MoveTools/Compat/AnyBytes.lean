import MoveTools.Compat.LibraVm
import MoveTools.Compat.Overflow
import MoveTools.Compat.Simultaneous
import MoveTools.Library.Collect

namespace MoveTools.Compat

/-! Which bytes `adapt` can be given. -/

/-! ### Nothing but growth -/

/-- No diff takes more than it gives, and each lies in the buffer or starts behind it. -/
def Grows (bytes : List UInt8) (m : Mutator) : Prop :=
  ∀ d ∈ m.diff, d.sourceRange.start ≤ d.sourceRange.stop ∧
    d.sourceRange.stop ≤ d.sourceRange.start + d.value.length ∧
      (d.sourceRange.start < bytes.length → d.sourceRange.stop ≤ bytes.length)

section
variable {bytes : List UInt8} {m : Mutator}

theorem Grows.makeDiff (h : Grows bytes m) {start stop : ℕ} {value : List UInt8}
    (hle : start ≤ stop) (hgrows : stop ≤ start + value.length)
    (hin : start < bytes.length → stop ≤ bytes.length) :
    Grows bytes (m.makeDiff start stop value) := by
  intro d hd
  rcases List.mem_append.mp hd with hd | hd
  · exact h d hd
  · obtain rfl := List.mem_singleton.mp hd
    exact ⟨hle, hgrows, hin⟩

theorem Grows.insert (h : Grows bytes m) (index : ℕ) (value : List UInt8) :
    Grows bytes (m.makeDiff index index value) :=
  h.makeDiff le_rfl (Nat.le_add_right _ _) Nat.le_of_lt

theorem apply_grows {originLen : ℕ} {d : Diff} {buffer : List UInt8} {offset : ℤ}
    (hin : d.sourceRange.start < originLen) (hle : d.sourceRange.start ≤ d.sourceRange.stop)
    (hgrows : d.sourceRange.stop ≤ d.sourceRange.start + d.value.length)
    (hstop : d.sourceRange.stop ≤ originLen) (hoffset : 0 ≤ offset)
    (hlen : (buffer.length : ℤ) = originLen + offset) :
    ∃ buffer', Mutator.apply originLen (buffer, offset) d = some (buffer', offset + d.offsetDiff) ∧
      0 ≤ offset + d.offsetDiff ∧ (buffer'.length : ℤ) = originLen + (offset + d.offsetDiff) := by
  obtain ⟨added, rfl⟩ := Int.eq_ofNat_of_zero_le hoffset
  -- the bytes before the range, in it and behind it
  let done := buffer.take (d.sourceRange.start + added)
  let old := (buffer.drop (d.sourceRange.start + added)).take
    (d.sourceRange.stop - d.sourceRange.start)
  let rest := (buffer.drop (d.sourceRange.start + added)).drop
    (d.sourceRange.stop - d.sourceRange.start)
  have hsplit : buffer = done ++ old ++ rest := by
    simp only [done, old, rest, List.append_assoc, List.take_append_drop]
  have hdone : done.length = d.sourceRange.start + added := by
    simp only [done, List.length_take]
    omega
  have hold : old.length = d.sourceRange.stop - d.sourceRange.start := by
    simp only [old, List.length_take, List.length_drop]
    omega
  have happly := Mutator.apply_inside d added done old rest hin (by omega) (by omega)
  have hdiff : d.offsetDiff = (d.value.length : ℤ) - old.length := by
    simp only [Diff.offsetDiff]
    omega
  have hbuffer := congrArg List.length hsplit
  rw [← hsplit] at happly
  refine ⟨_, happly, by omega, ?_⟩
  simp only [List.length_append] at hbuffer ⊢
  omega

theorem foldlM_grows {originLen : ℕ} {ds : List Diff} {buffer : List UInt8} {offset : ℤ}
    (hsorted : ds.Pairwise fun a b => a.sourceRange.start ≤ b.sourceRange.start)
    (hds : ∀ d ∈ ds, d.sourceRange.start ≤ d.sourceRange.stop ∧
      d.sourceRange.stop ≤ d.sourceRange.start + d.value.length ∧
        (d.sourceRange.start < originLen → d.sourceRange.stop ≤ originLen))
    (hstate : (∀ d ∈ ds, originLen ≤ d.sourceRange.start) ∨
      0 ≤ offset ∧ (buffer.length : ℤ) = originLen + offset) :
    (ds.foldlM (Mutator.apply originLen) (buffer, offset)).isSome := by
  induction ds generalizing buffer offset with
  | nil => rfl
  | cons d ds ih =>
    rw [List.pairwise_cons] at hsorted
    have hrest : ∀ e ∈ ds, _ := fun e he => hds e (List.mem_cons_of_mem d he)
    rw [List.foldlM_cons]
    by_cases hin : d.sourceRange.start < originLen
    · obtain ⟨hle, hgrows, hstop⟩ := hds d List.mem_cons_self
      rcases hstate with hout | hstate
      · exact absurd (hout d List.mem_cons_self) (not_le.mpr hin)
      · obtain ⟨buffer', happly, hstate'⟩ :=
          apply_grows hin hle hgrows (hstop hin) hstate.1 hstate.2
        rw [happly]
        exact ih hsorted.2 hrest (Or.inr hstate')
    · have happly : Mutator.apply originLen (buffer, offset) d =
          some (buffer ++ d.value, offset) := if_pos (not_lt.mp hin)
      rw [happly]
      refine ih hsorted.2 hrest (Or.inl fun e he => ?_)
      exact (not_lt.mp hin).trans (hsorted.1 e he)

theorem Grows.mutate (h : Grows bytes m) : (m.mutate bytes).isSome := by
  have hsorted : m.sorted.Pairwise fun a b => a.sourceRange.start ≤ b.sourceRange.start := by
    have hpairwise := List.pairwise_mergeSort start_trans start_total m.diff
    exact hpairwise.imp of_decide_eq_true
  have hds : ∀ d ∈ m.sorted, _ := fun d hd => h d ((sorted_perm m).mem_iff.mp hd)
  have hfold : (m.sorted.foldlM (Mutator.apply bytes.length) (bytes, 0)).isSome :=
    foldlM_grows hsorted hds (Or.inr ⟨le_rfl, by simp⟩)
  rw [Mutator.mutate, Option.isSome_map]
  exact hfold

end

/-! ### Readers -/

theorem Cursor.At.le_length {cur : Cursor} {w : List UInt8} (h : cur.At w) (hw : w ≠ []) :
    cur.position + w.length ≤ cur.bytes.length := by
  have hle := h.length_le
  have hpos := List.length_pos_iff.mpr hw
  rw [List.length_drop] at hle
  omega

/-- How a step over `bytes` ends: as a panic unless its numbers fit, with an error if not everything
can be read, and else with `value`. -/
structure Ends {α : Type} (fits readable : Prop) (done : α → Prop) (r : Except Failure α) : Prop where
  panics : ¬fits → r = .error .panic
  fails : fits → ¬readable → ∃ text, r = .error (.error text)
  returns : fits → readable → ∃ a, done a ∧ r = .ok a

/-- A step that does not fit is none that would fit later on. -/
theorem Ends.bind {α β : Type} {fits fits' readable readable' : Prop} {done : α → Prop}
    {done' : β → Prop} {r : Except Failure α} {f : α → Except Failure β}
    (h : Ends fits readable done r) (hfits : fits' → fits)
    (hfails : fits → ¬readable → fits' ∧ ¬readable')
    (hf : fits → readable → ∀ a, done a → Ends fits' readable' done' (f a)) :
    Ends fits' readable' done' (r >>= f) := by
  by_cases hfit : fits
  · by_cases hread : readable
    · obtain ⟨a, ha, rfl⟩ := h.returns hfit hread
      exact hf hfit hread a ha
    · obtain ⟨hfit', hread'⟩ := hfails hfit hread
      obtain ⟨text, rfl⟩ := h.fails hfit hread
      exact ⟨fun h => absurd hfit' h, fun _ _ => ⟨text, rfl⟩, fun _ h => absurd h hread'⟩
  · rw [h.panics hfit]
    exact ⟨fun _ => rfl, fun h => absurd (hfits h) hfit, fun h => absurd (hfits h) hfit⟩

theorem exactU32_bind {α : Type} {n : ℕ} {fits readable : Prop} {done : α → Prop}
    {f : ℕ → Except Failure α} (hfits : fits → n < 2 ^ 32)
    (hf : n < 2 ^ 32 → Ends fits readable done (f n)) :
    Ends fits readable done (exactU32 n >>= f) := by
  by_cases hn : n < 2 ^ 32
  · rw [exactU32_of_lt hn]
    exact hf hn
  · rw [exactU32_of_ge hn]
    exact ⟨fun _ => rfl, fun h => absurd (hfits h) hn, fun h => absurd (hfits h) hn⟩

theorem Ends.congr {α : Type} {fits fits' readable readable' : Prop} {done : α → Prop}
    {r : Except Failure α} (h : Ends fits readable done r) (hfits : fits ↔ fits')
    (hreadable : readable ↔ readable') : Ends fits' readable' done r := by
  rwa [← propext hfits, ← propext hreadable]

section
variable {vm : Vm} {limits : Limits} (hvm : vm.Sound limits) {bytes : List UInt8} {m : Mutator}
include hvm

theorem makeUleb128Diff_grows {n n' p : ℕ} (hm : Grows bytes m) (hn : n' < 2 ^ 32) (hle : n ≤ n')
    (hend : p + (Uleb.write n).length ≤ bytes.length) :
    ∃ m', Grows bytes m' ∧
      makeUleb128Diff vm p (p + (Uleb.write n).length) n' m = .ok m' := by
  have hlen := Uleb.length_write_mono hle
  refine ⟨m.makeDiff p (p + (Uleb.write n).length) (Uleb.write n'),
    hm.makeDiff (Nat.le_add_right _ _) (by omega) (fun _ => hend), ?_⟩
  rw [makeUleb128Diff, hvm.write_u64_as_uleb128 (by omega)]
  rfl

theorem load_constant {p size : ℕ} {t : SignatureToken} {cur cur' : Cursor}
    (ht : vm.loadSignatureToken ⟨bytes, p⟩ = .ok (t, cur))
    (hsize : vm.loadConstantSize cur = .ok (size, cur')) :
    size < 2 ^ 16 ∧ ∃ q, p < q ∧ cur = ⟨bytes, q⟩ ∧ cur' = ⟨bytes, q + (Uleb.write size).length⟩ ∧
      q + (Uleb.write size).length ≤ bytes.length := by
  obtain ⟨w, hw, -, rfl⟩ := hvm.load_signature_token ht
  obtain ⟨hmax, hat, rfl⟩ := hvm.load_constant_size hsize
  have hpos := List.length_pos_iff.mpr hw
  refine ⟨hmax.trans_lt hvm.constant_size_max, p + w.length, by omega, rfl, rfl, ?_⟩
  exact hat.le_length (Uleb.write_ne_nil size)

/-- The loop ends within as many rounds as there are bytes behind the cursor. -/
theorem constPoolLoop_ends (stop : ℕ) {fuel p added : ℕ} (hfuel : bytes.length - p < fuel)
    (hadded : added < 2 ^ 32) (hm : Grows bytes m) :
    Ends (added + ((poolTypes vm stop fuel ⟨bytes, p⟩).1.filter isAddress).length * 4 < 2 ^ 32)
      ((poolTypes vm stop fuel ⟨bytes, p⟩).2 = true)
      (fun x => x.1 = added + ((poolTypes vm stop fuel ⟨bytes, p⟩).1.filter isAddress).length * 4 ∧
        Grows bytes x.2)
      (Exact.constPoolLoop vm stop fuel ⟨bytes, p⟩ added m) := by
  induction fuel generalizing p added m with
  | zero => omega
  | succ fuel ih =>
    rw [poolTypes, Exact.constPoolLoop]
    by_cases hlt : p < stop
    · simp only [if_pos hlt]
      cases htype : vm.loadSignatureToken ⟨bytes, p⟩ with
      -- the loader refuses the type, and all that was counted so far fits
      | error text =>
        exact ⟨fun h => absurd hadded h, fun _ _ => ⟨text, rfl⟩, fun _ h => absurd h (by simp)⟩
      | ok x =>
        obtain ⟨t, cur⟩ := x
        cases hsize : vm.loadConstantSize cur with
        | error text =>
          simp only [hsize, orFail_ok, ok_bind]
          exact ⟨fun h => absurd hadded h, fun _ _ => ⟨text, rfl⟩, fun _ h => absurd h (by simp)⟩
        | ok y =>
          obtain ⟨size, cur'⟩ := y
          obtain ⟨hsmall, q, hq, rfl, rfl, hend⟩ := load_constant hvm htype hsize
          simp only [hsize, orFail_ok, ok_bind, exactU32_of_lt (show size < 2 ^ 32 by omega)]
          have hfuel' : bytes.length - (q + (Uleb.write size).length + size) < fuel := by omega
          by_cases haddress : isAddress t = true
          · cases t with
            | Address =>
              have hcount : ∀ ts, added + ((SignatureToken.Address :: ts).filter isAddress).length * 4 =
                  added + 4 + (ts.filter isAddress).length * 4 := by
                intro ts
                rw [List.filter_cons_of_pos haddress, List.length_cons]
                ring
              have hgrowth : DFIN_ADDR_LEN - LIBRA_ADDR_LEN = 4 := rfl
              obtain ⟨m', hm', hdiff⟩ := makeUleb128Diff_grows hvm hm
                (show size + 4 < 2 ^ 32 by omega) (Nat.le_add_right size 4) hend
              simp only [hcount, hgrowth, exactU32_of_lt (show size + 4 < 2 ^ 32 by omega), ok_bind,
                hdiff]
              -- of all the numbers only the sum can be too large
              by_cases hfits : added + 4 < 2 ^ 32
              · rw [exactU32_of_lt hfits, ok_bind]
                exact ih hfuel' hfits (hm'.insert _ _)
              · rw [exactU32_of_ge hfits]
                exact ⟨fun _ => rfl, fun h => absurd h (by omega), fun h => absurd h (by omega)⟩
            | _ => cases haddress
          · have hcount : ∀ ts, ((t :: ts).filter isAddress).length = (ts.filter isAddress).length := by
              intro ts
              rw [List.filter_cons_of_neg haddress]
            simp only [hcount]
            cases t with
            | Address => exact absurd rfl haddress
            | _ => exact ih hfuel' hadded hm
    · simp only [if_neg hlt]
      exact ⟨fun h => absurd hadded h, fun _ h => absurd trivial h, fun _ _ => ⟨_, ⟨rfl, hm⟩, rfl⟩⟩

omit hvm in
theorem foldl_insert_grows (indices : List ℕ) (position : ℕ) (hm : Grows bytes m) :
    Grows bytes (indices.foldl (fun mutator idx =>
      mutator.makeDiff (position + idx) (position + idx) [0, 0, 0, 0]) m) := by
  induction indices generalizing m with
  | nil => exact hm
  | cons i is ih => exact ih (hm.insert _ _)

omit hvm in
theorem handleAddressIdentifiers_grows (ctx : TableContext) (hm : Grows bytes m) :
    (handleAddressIdentifiers DFIN_ADDR_LEN ctx m).1 =
        (if ctx.len % LIBRA_ADDR_LEN = 0 then ctx.len / LIBRA_ADDR_LEN * 4 else 0) ∧
      Grows bytes (handleAddressIdentifiers DFIN_ADDR_LEN ctx m).2 := by
  unfold handleAddressIdentifiers
  split_ifs
  · exact ⟨rfl, foldl_insert_grows _ _ hm⟩
  · exact ⟨rfl, hm⟩

omit hvm in
/-- Both sums are exact if the last one is. -/
theorem exact_place {α : Type} (offset headerSize headerLen : ℕ) (f : ℕ → Except Failure α) :
    (do
      let position ← exactU32 (offset + headerSize)
      let position ← exactU32 (position + headerLen)
      f position) =
    if offset + (headerSize + headerLen) < 2 ^ 32 then f (offset + (headerSize + headerLen))
    else .error .panic := by
  by_cases hsize : offset + headerSize < 2 ^ 32
  · rw [exactU32_of_lt hsize, ok_bind, Nat.add_assoc]
    split_ifs with hfits
    · rw [exactU32_of_lt hfits, ok_bind]
    · rw [exactU32_of_ge hfits, error_bind]
  · rw [exactU32_of_ge hsize, error_bind, if_neg (by omega)]

def TableEnds (vm : Vm) (fuel : ℕ) (bytes : List UInt8) (contentStart : ℕ) (x : TableHeader)
    (r : Except Failure (ℕ × Mutator)) : Prop :=
  Ends ((TableHeader.Special x → x.2.1 + contentStart < 2 ^ 32) ∧
      growthIn vm fuel bytes contentStart x < 2 ^ 32)
    (Readable vm fuel bytes contentStart x)
    (fun y => y.1 = growthIn vm fuel bytes contentStart x ∧ Grows bytes y.2) r

section
variable {x : TableHeader} {cur : Cursor} {fuel headerSize headerLen : ℕ}

omit hvm in
theorem handleTable_addresses (hkind : x.1 = TableType.ADDRESS_IDENTIFIERS)
    (hlen : x.2.2 < 2 ^ 32) (hm : Grows bytes m) :
    TableEnds vm fuel bytes (headerSize + headerLen) x
      (Exact.handleTable vm fuel x.1 cur x.2.1 headerSize headerLen x.2.2 m) := by
  have hpool : x.1 ≠ TableType.CONSTANT_POOL := by
    rw [hkind]
    decide
  have hreadable : Readable vm fuel bytes (headerSize + headerLen) x := by
    simp only [Readable, typesIn, if_neg hpool]
  have hspecial : TableHeader.Special x := Or.inl hkind
  have hgrowth : growthIn vm fuel bytes (headerSize + headerLen) x =
      if x.2.2 % LIBRA_ADDR_LEN = 0 then x.2.2 / LIBRA_ADDR_LEN * 4 else 0 := if_pos hkind
  have hsmall : growthIn vm fuel bytes (headerSize + headerLen) x < 2 ^ 32 := by
    rw [hgrowth, LIBRA_ADDR_LEN]
    split_ifs <;> omega
  rw [Exact.handleTable, if_pos hkind, exact_place]
  by_cases hplace : x.2.1 + (headerSize + headerLen) < 2 ^ 32
  · rw [if_pos hplace]
    obtain ⟨hfirst, hgrows⟩ := handleAddressIdentifiers_grows
      (TableContext.new cur (x.2.1 + (headerSize + headerLen)) x.2.2) hm
    exact ⟨fun h => absurd ⟨fun _ => hplace, hsmall⟩ h, fun _ h => absurd hreadable h,
      fun _ _ => ⟨_, ⟨hfirst.trans hgrowth.symm, hgrows⟩, rfl⟩⟩
  · rw [if_neg hplace]
    exact ⟨fun _ => rfl, fun h => absurd (h.1 hspecial) hplace,
      fun h => absurd (h.1 hspecial) hplace⟩

theorem handleTable_pool (hkind : x.1 = TableType.CONSTANT_POOL) (hcur : cur.bytes = bytes)
    (hfuel : bytes.length < fuel) (hm : Grows bytes m) :
    TableEnds vm fuel bytes (headerSize + headerLen) x
      (Exact.handleTable vm fuel x.1 cur x.2.1 headerSize headerLen x.2.2 m) := by
  have haddress : x.1 ≠ TableType.ADDRESS_IDENTIFIERS := by
    rw [hkind]
    decide
  have hspecial : TableHeader.Special x := Or.inr hkind
  have htypes : typesIn vm fuel bytes (headerSize + headerLen) x =
      poolTypes vm (x.2.1 + (headerSize + headerLen) + x.2.2) fuel
        ⟨bytes, x.2.1 + (headerSize + headerLen)⟩ := if_pos hkind
  have hgrowth : growthIn vm fuel bytes (headerSize + headerLen) x =
      ((typesIn vm fuel bytes (headerSize + headerLen) x).1.filter isAddress).length * 4 :=
    if_neg haddress
  rw [Exact.handleTable, if_neg haddress, if_pos hkind, exact_place]
  by_cases hplace : x.2.1 + (headerSize + headerLen) < 2 ^ 32
  · rw [if_pos hplace]
    have hfuel' : bytes.length - (x.2.1 + (headerSize + headerLen)) < fuel := by omega
    have hloop := constPoolLoop_ends hvm (x.2.1 + (headerSize + headerLen) + x.2.2) hfuel'
      (show 0 < 2 ^ 32 by norm_num) hm
    simp only [Nat.zero_add] at hloop
    rw [← htypes, ← hgrowth] at hloop
    subst hcur
    exact hloop.congr ⟨fun h => ⟨fun _ => hplace, h⟩, And.right⟩ Iff.rfl
  · rw [if_neg hplace]
    exact ⟨fun _ => rfl, fun h => absurd (h.1 hspecial) hplace,
      fun h => absurd (h.1 hspecial) hplace⟩

omit hvm in
theorem handleTable_other (hother : ¬TableHeader.Special x) (hm : Grows bytes m) :
    TableEnds vm fuel bytes (headerSize + headerLen) x
      (Exact.handleTable vm fuel x.1 cur x.2.1 headerSize headerLen x.2.2 m) := by
  have haddress : x.1 ≠ TableType.ADDRESS_IDENTIFIERS := fun h => hother (Or.inl h)
  have hpool : x.1 ≠ TableType.CONSTANT_POOL := fun h => hother (Or.inr h)
  have htypes : typesIn vm fuel bytes (headerSize + headerLen) x = ([], true) := if_neg hpool
  have hnone : growthIn vm fuel bytes (headerSize + headerLen) x = 0 := by
    rw [growthIn, if_neg haddress, htypes]
    rfl
  have hreadable : Readable vm fuel bytes (headerSize + headerLen) x := by
    rw [Readable, htypes]
  rw [Exact.handleTable, if_neg haddress, if_neg hpool]
  exact ⟨fun h => absurd ⟨fun h => absurd h hother, by omega⟩ h, fun _ h => absurd hreadable h,
    fun _ _ => ⟨_, ⟨hnone.symm, hm⟩, rfl⟩⟩

theorem handleTable_ends (hcur : cur.bytes = bytes) (hfuel : bytes.length < fuel)
    (hlen : x.2.2 < 2 ^ 32) (hm : Grows bytes m) :
    TableEnds vm fuel bytes (headerSize + headerLen) x
      (Exact.handleTable vm fuel x.1 cur x.2.1 headerSize headerLen x.2.2 m) := by
  by_cases haddress : x.1 = TableType.ADDRESS_IDENTIFIERS
  · exact handleTable_addresses haddress hlen hm
  · by_cases hpool : x.1 = TableType.CONSTANT_POOL
    · exact handleTable_pool hvm hpool hcur hfuel hm
    · exact handleTable_other (fun h => h.elim haddress hpool) hm

end

/-! ### Headers -/

theorem read_header {p : ℕ} {kind : UInt8} {offset len : ℕ} {cur cur' cur'' : Cursor}
    (hkind : vm.readU8 ⟨bytes, p⟩ = .ok (kind, cur))
    (hoffset : vm.readUleb128AsU64 cur = .ok (offset, cur'))
    (hlen : vm.readUleb128AsU64 cur' = .ok (len, cur'')) :
    cur = ⟨bytes, p + 1⟩ ∧ cur' = ⟨bytes, p + 1 + (Uleb.write offset).length⟩ ∧
      cur'' = ⟨bytes, p + 1 + (Uleb.write offset).length + (Uleb.write len).length⟩ ∧
      p + 1 + (Uleb.write offset).length + (Uleb.write len).length ≤ bytes.length := by
  obtain ⟨-, rfl⟩ := hvm.read_u8 hkind
  obtain ⟨-, -, rfl⟩ := hvm.read_uleb128_as_u64 hoffset
  obtain ⟨-, hat, rfl⟩ := hvm.read_uleb128_as_u64 hlen
  exact ⟨rfl, rfl, rfl, hat.le_length (Uleb.write_ne_nil len)⟩

/-- A number is written anew if it grows. -/
theorem grown_number {n growth p : ℕ} (hm : Grows bytes m) (hn : n < 2 ^ 32)
    (hend : p + (Uleb.write n).length ≤ bytes.length) :
    Ends (n + growth < 2 ^ 32) True (Grows bytes)
      (if growth > 0 then do
        let grown ← exactU32 (n + growth)
        makeUleb128Diff vm p (p + (Uleb.write n).length) grown m
      else .ok m) := by
  by_cases hgrowth : growth > 0
  · rw [if_pos hgrowth]
    apply exactU32_bind id
    intro hfits
    obtain ⟨m', hm', hdiff⟩ := makeUleb128Diff_grows hvm hm hfits (Nat.le_add_right n growth) hend
    exact ⟨fun h => absurd hfits h, fun _ h => absurd trivial h, fun _ _ => ⟨m', hm', hdiff⟩⟩
  · rw [if_neg hgrowth]
    exact ⟨fun h => absurd (by omega) h, fun _ h => absurd trivial h, fun _ _ => ⟨m, hm, rfl⟩⟩

/-- What the loop over the headers carries, over the same bytes. -/
structure Carries (bytes : List UInt8) (cur : Cursor) (added : ℕ) (s : DiffState) : Prop where
  cursor : s.cur = cur
  added : s.additionalOffset = added
  grows : Grows bytes s.mutator

theorem makeTableDiff_ends (headerLen headerSize : ℕ) {s : DiffState} {p added fuel : ℕ} {kind : UInt8}
    {offset len : ℕ} {cur cur' cur'' : Cursor}
    (hkind : vm.readU8 ⟨bytes, p⟩ = .ok (kind, cur))
    (hoffset : vm.readUleb128AsU64 cur = .ok (offset, cur'))
    (hlen : vm.readUleb128AsU64 cur' = .ok (len, cur''))
    (hfuel : bytes.length < fuel) (hs : Carries bytes ⟨bytes, p⟩ added s) :
    Ends (HeaderFits vm fuel bytes (headerSize + headerLen) added (kind, offset, len))
      (Readable vm fuel bytes (headerSize + headerLen) (kind, offset, len))
      (Carries bytes cur'' (added + growthIn vm fuel bytes (headerSize + headerLen)
        (kind, offset, len)))
      (Exact.makeTableDiff vm fuel headerLen headerSize s) := by
  obtain ⟨rfl, rfl, rfl, hend⟩ := read_header hvm hkind hoffset hlen
  rw [Exact.makeTableDiff, hs.cursor, hkind]
  simp only [orFail_ok, ok_bind, hoffset, hs.added]
  apply exactU32_bind fun h => (Nat.le_add_right offset added).trans_lt h.offset
  intro hoffset32
  apply (grown_number hvm hs.grows hoffset32 (by omega)).bind HeaderFits.offset
    fun _ h => absurd trivial h
  intro hoffsetFits _ m₁ hm₁
  simp only [orFail_ok, ok_bind, hlen]
  apply exactU32_bind HeaderFits.len
  intro hlen32
  -- the table itself, at the place that the header names
  have htable := @handleTable_ends vm limits hvm bytes m₁ (kind, offset, len)
    ⟨bytes, p + 1 + (Uleb.write offset).length + (Uleb.write len).length⟩ fuel headerSize headerLen
    rfl hfuel hlen32 hm₁
  apply Ends.bind htable fun h => ⟨h.place, h.growth⟩
  · intro h hread
    exact ⟨⟨hoffsetFits, hlen32, h.1, h.2, fun h => absurd h hread⟩, hread⟩
  · intro h hread y hy
    obtain ⟨hgrowth, hm₂⟩ := hy
    simp only [hgrowth]
    apply (grown_number hvm hm₂ hlen32 hend).bind (fun h => (h.grown hread).1)
      fun _ h => absurd trivial h
    intro hgrown _ m₃ hm₃
    apply exactU32_bind fun h => (h.grown hread).2
    intro hsum
    exact ⟨fun hnot => absurd ⟨hoffsetFits, hlen32, h.1, h.2, fun _ => ⟨hgrown, hsum⟩⟩ hnot,
      fun _ h => absurd hread h, fun _ _ => ⟨_, ⟨rfl, rfl, hm₃⟩, rfl⟩⟩

omit hvm in
theorem headersFitFrom_cons {fuel contentStart added : ℕ} {x : TableHeader}
    {hs : List TableHeader} :
    HeadersFitFrom vm fuel bytes contentStart added (x :: hs) ↔
      HeaderFits vm fuel bytes contentStart added x ∧
        (Readable vm fuel bytes contentStart x →
          HeadersFitFrom vm fuel bytes contentStart
            (added + growthIn vm fuel bytes contentStart x) hs) := by
  constructor
  · intro h
    refine ⟨h [] x hs rfl (by simp), fun hx before y after hsplit hbefore => ?_⟩
    have hy := h (x :: before) y after (congrArg (x :: ·) hsplit)
      fun z hz => (List.mem_cons.mp hz).elim (fun hz => hz ▸ hx) (hbefore z)
    rwa [List.map_cons, List.sum_cons, ← Nat.add_assoc] at hy
  · intro h before y after hsplit hbefore
    cases before with
    | nil =>
      obtain ⟨rfl, rfl⟩ := List.cons.inj hsplit
      exact h.1
    | cons z before =>
      obtain ⟨rfl, hrest⟩ := List.cons.inj hsplit
      have hy := h.2 (hbefore x List.mem_cons_self) before y after hrest
        fun w hw => hbefore w (List.mem_cons_of_mem x hw)
      rwa [List.map_cons, List.sum_cons, ← Nat.add_assoc]

omit hvm in
theorem readHeaders_succ {n : ℕ} {cur stop : Cursor} {hs : List TableHeader}
    (h : readHeaders vm (n + 1) cur = .ok (hs, stop)) :
    ∃ kind offset len hs' cur₁ cur₂ cur₃, hs = (kind, offset, len) :: hs' ∧
      vm.readU8 cur = .ok (kind, cur₁) ∧ vm.readUleb128AsU64 cur₁ = .ok (offset, cur₂) ∧
        vm.readUleb128AsU64 cur₂ = .ok (len, cur₃) ∧ readHeaders vm n cur₃ = .ok (hs', stop) := by
  obtain ⟨⟨kind, cur₁⟩, hkind, h⟩ := Collect.bind_eq_ok.mp h
  obtain ⟨⟨offset, cur₂⟩, hoffset, h⟩ := Collect.bind_eq_ok.mp h
  obtain ⟨⟨len, cur₃⟩, hlen, h⟩ := Collect.bind_eq_ok.mp h
  obtain ⟨⟨hs', cur₄⟩, hrest, h⟩ := Collect.bind_eq_ok.mp h
  cases h
  exact ⟨kind, offset, len, hs', cur₁, cur₂, cur₃, rfl, hkind, hoffset, hlen, hrest⟩

theorem readHeaders_stop {n p : ℕ} {stop : Cursor} {hs : List TableHeader}
    (h : readHeaders vm n ⟨bytes, p⟩ = .ok (hs, stop)) :
    ∃ q, p ≤ q ∧ stop = ⟨bytes, q⟩ := by
  induction n generalizing p hs with
  | zero =>
    cases h
    exact ⟨p, le_rfl, rfl⟩
  | succ n ih =>
    obtain ⟨kind, offset, len, hs', cur₁, cur₂, cur₃, rfl, hkind, hoffset, hlen, hrest⟩ :=
      readHeaders_succ h
    obtain ⟨rfl, rfl, rfl, -⟩ := read_header hvm hkind hoffset hlen
    obtain ⟨q, hq, hstop⟩ := ih hrest
    exact ⟨q, by omega, hstop⟩

theorem makeTableDiffs_ends (headerLen headerSize : ℕ) {n p added fuel : ℕ} {s : DiffState}
    {stop : Cursor} {hs : List TableHeader} (hread : readHeaders vm n ⟨bytes, p⟩ = .ok (hs, stop))
    (hfuel : bytes.length < fuel) (hstate : Carries bytes ⟨bytes, p⟩ added s) :
    Ends (HeadersFitFrom vm fuel bytes (headerSize + headerLen) added hs)
      (∀ x ∈ hs, Readable vm fuel bytes (headerSize + headerLen) x)
      (fun s => Grows bytes s.mutator)
      (Exact.makeTableDiffs vm fuel headerLen headerSize n s) := by
  induction n generalizing p added s hs with
  | zero =>
    cases hread
    exact ⟨fun h => absurd (fun _ _ _ hsplit => absurd hsplit (by simp)) h,
      fun _ h => absurd (by simp) h, fun _ _ => ⟨s, hstate.grows, rfl⟩⟩
  | succ n ih =>
    obtain ⟨kind, offset, len, hs', cur₁, cur₂, cur₃, rfl, hkind, hoffset, hlen, hrest⟩ :=
      readHeaders_succ hread
    have hheader := makeTableDiff_ends hvm headerLen headerSize hkind hoffset hlen hfuel hstate
    obtain ⟨rfl, rfl, rfl, -⟩ := read_header hvm hkind hoffset hlen
    rw [Exact.makeTableDiffs]
    apply hheader.bind fun h => (headersFitFrom_cons.mp h).1
    · intro h hunread
      exact ⟨headersFitFrom_cons.mpr ⟨h, fun h => absurd h hunread⟩,
        fun hall => hunread (hall _ List.mem_cons_self)⟩
    · intro h hfirst s' hs'
      apply (ih hrest hs').congr
      · rw [headersFitFrom_cons]
        exact ⟨fun hrest => ⟨h, fun _ => hrest⟩, fun hall => hall.2 hfirst⟩
      · rw [List.forall_mem_cons]
        exact ⟨fun hrest => ⟨hfirst, hrest⟩, And.right⟩

omit hvm in
theorem orFail_map_bind {α β γ : Type} (r : Except String α) (f : α → Except String β) (g : β → γ) :
    orFail ((r >>= f).map g) = orFail r >>= fun a => orFail ((f a).map g) := by
  cases r <;> rfl

omit hvm in
theorem skipHeaders_eq (n : ℕ) (cur : Cursor) :
    skipHeaders vm n cur = orFail ((readHeaders vm n cur).map Prod.snd) := by
  induction n generalizing cur with
  | zero => rfl
  | succ n ih =>
    have hlast : ∀ cur (x : TableHeader), (orFail (readHeaders vm n cur) >>= fun w =>
        orFail ((pure (x :: w.1, w.2) : Except String _).map Prod.snd)) =
          orFail ((readHeaders vm n cur).map Prod.snd) := by
      intro cur x
      cases readHeaders vm n cur <;> rfl
    simp only [skipHeaders, readHeaders, orFail_map_bind, ih, hlast]

/-! ### The whole run -/

theorem read_count {cur cur' : Cursor} {n : ℕ} (hcheck : vm.checkBinary ⟨bytes, 0⟩ = .ok cur)
    (hcount : vm.readUleb128AsU64 cur = .ok (n, cur')) :
    ∃ p, p < 2 ^ 32 ∧ cur' = ⟨bytes, p⟩ := by
  obtain rfl := hvm.check_binary hcheck
  obtain ⟨hn, -, rfl⟩ := hvm.read_uleb128_as_u64 hcount
  refine ⟨_, ?_, rfl⟩
  have hlen := Uleb.length_write_le (show n < 128 ^ 10 by omega)
  change 8 + (Uleb.write n).length < 2 ^ 32
  omega

omit hvm in
theorem fitsU32_iff {fuel n : ℕ} {cur cur' stop : Cursor} {hs : List TableHeader}
    (hcheck : vm.checkBinary ⟨bytes, 0⟩ = .ok cur)
    (hcount : vm.readUleb128AsU64 cur = .ok (n, cur'))
    (hread : readHeaders vm n cur' = .ok (hs, stop)) :
    FitsU32 vm fuel bytes ↔
      stop.position < 2 ^ 32 ∧ HeadersFitFrom vm fuel bytes stop.position 0 hs := by
  constructor
  · intro h
    exact h cur n cur' hs stop hcheck hcount hread
  · intro h cur₁ n₁ cur₂ hs₁ stop₁ hcheck₁ hcount₁ hread₁
    obtain rfl := Except.ok.inj (hcheck.symm.trans hcheck₁)
    obtain ⟨rfl, rfl⟩ := Prod.mk.inj (Except.ok.inj (hcount.symm.trans hcount₁))
    obtain ⟨rfl, rfl⟩ := Prod.mk.inj (Except.ok.inj (hread.symm.trans hread₁))
    exact h

/-- Headers that can be read are dealt with to the end. -/
theorem makeDiff_ends {fuel n p : ℕ} {cur stop : Cursor} {hs : List TableHeader}
    (hp : p < 2 ^ 32) (hcount : vm.readUleb128AsU64 cur = .ok (n, ⟨bytes, p⟩))
    (hread : readHeaders vm n ⟨bytes, p⟩ = .ok (hs, stop)) (hfuel : bytes.length < fuel) :
    Ends (stop.position < 2 ^ 32 ∧ HeadersFitFrom vm fuel bytes stop.position 0 hs)
      (∀ x ∈ hs, Readable vm fuel bytes stop.position x) (Grows bytes)
      (Exact.makeDiff vm fuel cur Mutator.new) := by
  obtain ⟨q, hpq, rfl⟩ := readHeaders_stop hvm hread
  have hskip : skipHeaders vm n ⟨bytes, p⟩ = .ok ⟨bytes, q⟩ := by
    rw [skipHeaders_eq, hread]
    rfl
  have hsum : q - p + p = q := Nat.sub_add_cancel hpq
  rw [Exact.makeDiff, hcount]
  simp only [orFail_ok, ok_bind, exactU32_of_lt hp, Exact.calcHeaderSize, hskip, bind_assoc]
  apply exactU32_bind And.left
  intro hq
  rw [if_pos hpq]
  change Ends _ _ _ (Exact.makeTableDiffs vm fuel p (q - p) n ⟨⟨bytes, p⟩, Mutator.new, 0⟩ >>= _)
  have hstart : Carries bytes ⟨bytes, p⟩ 0 ⟨⟨bytes, p⟩, Mutator.new, 0⟩ :=
    ⟨rfl, rfl, fun d hd => absurd hd List.not_mem_nil⟩
  have hheaders := makeTableDiffs_ends hvm p (q - p) hread hfuel hstart
  rw [hsum] at hheaders
  apply Ends.bind hheaders And.right
  · exact fun h hunread => ⟨⟨hq, h⟩, hunread⟩
  · intro h hall s hs
    exact ⟨fun hnot => absurd ⟨hq, h⟩ hnot, fun _ hnot => absurd hall hnot, fun _ _ => ⟨_, hs, rfl⟩⟩

theorem prepare_ends {fuel : ℕ} (hfuel : bytes.length < fuel) :
    ∃ readable, Ends (FitsU32 vm fuel bytes) readable (Grows bytes)
      (Exact.prepare vm fuel bytes) := by
  -- where the headers cannot be read, nothing has to fit
  have hfails : ∀ {r : Except Failure Mutator} text, FitsU32 vm fuel bytes →
      r = .error (.error text) → ∃ readable, Ends (FitsU32 vm fuel bytes) readable (Grows bytes) r := by
    intro r text hfits hr
    exact ⟨False, fun h => absurd hfits h, fun _ _ => ⟨text, hr⟩, fun _ h => h.elim⟩
  rw [Exact.prepare]
  cases hcheck : vm.checkBinary ⟨bytes, 0⟩ with
  | error text =>
    exact hfails text (fun _ _ _ _ _ h => absurd (hcheck.symm.trans h) (by simp)) rfl
  | ok cur =>
    rw [orFail_ok, ok_bind]
    cases hcount : vm.readUleb128AsU64 cur with
    | error text =>
      apply hfails text
      · intro cur₁ n cur' hs stop hcheck₁ hcount₁
        obtain rfl := Except.ok.inj (hcheck.symm.trans hcheck₁)
        exact absurd (hcount.symm.trans hcount₁) (by simp)
      · rw [Exact.makeDiff, hcount]
        rfl
    | ok x =>
      obtain ⟨n, cur'⟩ := x
      obtain ⟨p, hp, rfl⟩ := read_count hvm hcheck hcount
      cases hread : readHeaders vm n ⟨bytes, p⟩ with
      | error text =>
        apply hfails text
        · intro cur₁ n₁ cur₂ hs stop hcheck₁ hcount₁ hread₁
          obtain rfl := Except.ok.inj (hcheck.symm.trans hcheck₁)
          obtain ⟨rfl, rfl⟩ := Prod.mk.inj (Except.ok.inj (hcount.symm.trans hcount₁))
          exact absurd (hread.symm.trans hread₁) (by simp)
        · simp only [Exact.makeDiff, hcount, orFail_ok, ok_bind, exactU32_of_lt hp,
            Exact.calcHeaderSize, skipHeaders_eq, hread]
          rfl
      | ok y =>
        obtain ⟨hs, stop⟩ := y
        have hends := makeDiff_ends hvm hp hcount hread hfuel
        exact ⟨_, hends.congr (fitsU32_iff hcheck hcount hread).symm Iff.rfl⟩

end

/-! ### Which bytes are safe -/

/-- `adapt` is total and atomic exactly on the bytes whose numbers fit, and on these it computes with
exact numbers. -/
theorem adapt_safe_iff {vm : Vm} {limits : Limits} (hvm : vm.Sound limits) {bytes : List UInt8}
    {fuel : ℕ} (hfuel : bytes.length < fuel) :
    (Safe vm fuel bytes ↔ FitsU32 vm fuel bytes) ∧
      (Safe vm fuel bytes → adapt vm fuel bytes = Exact.outcome (Exact.adapt vm fuel bytes)) := by
  refine ⟨?_, adapt_of_safe⟩
  obtain ⟨readable, hends⟩ := prepare_ends hvm hfuel
  constructor
  · intro hsafe
    by_contra hfits
    have hpanics : Exact.adapt vm fuel bytes = .error .panic bytes := by
      rw [exact_adapt, hends.panics hfits]
    rw [Safe, hpanics] at hsafe
    exact hsafe.1 rfl
  · intro hfits
    by_cases hreadable : readable
    · obtain ⟨mutator, hgrows, hrun⟩ := hends.returns hfits hreadable
      obtain ⟨bytes', hmutate⟩ := Option.isSome_iff_exists.mp hgrows.mutate
      have hreturns : Exact.adapt vm fuel bytes = .ok () bytes' := by
        rw [exact_adapt, hrun]
        simp only [hmutate]
      rw [Safe, hreturns]
      exact trivial
    · obtain ⟨text, hrun⟩ := hends.fails hfits hreadable
      have hfails : Exact.adapt vm fuel bytes = .error (.error text) bytes := by
        rw [exact_adapt, hrun]
      rw [Safe, hfails]
      exact ⟨by simp, by simp, rfl⟩

theorem readWith_sound {α : Type} (c : Codec α) {accepted : α → Bool} {cur cur' : Cursor} {a : α}
    (hne : c.write a ≠ []) (h : readWith c accepted cur = .ok (a, cur')) :
    accepted a = true ∧ cur.At (c.write a) ∧ cur' = cur.skip (c.write a) := by
  rw [readWith] at h
  split at h
  · rename_i b rest hread
    split_ifs at h with ha
    obtain ⟨rfl, rfl⟩ := Prod.mk.inj (Except.ok.inj h)
    have hsplit := c.read_iff.mp hread
    have hlen := congrArg List.length hsplit
    have hpos := List.length_pos_iff.mpr hne
    rw [List.length_append, List.length_drop] at hlen
    refine ⟨ha, ⟨rest, hsplit.symm⟩, ?_⟩
    rw [Cursor.skip]
    congr 1
    omega
  · cases h

theorem libraVm_sound : libraVm.Sound libraLimits where
  check_binary := by
    intro bytes cur h
    obtain ⟨x, hx, rfl⟩ := Collect.map_eq_ok.mp h
    exact (readWith_sound (Codec.fixed preamble) (List.cons_ne_nil _ _) hx).2.2
  read_u8 h := (readWith_sound Codec.byte (List.cons_ne_nil _ _) h).2
  read_uleb128_as_u64 h := by
    obtain ⟨hn, hat, hcur⟩ := readWith_sound Uleb.codec (Uleb.write_ne_nil _) h
    exact ⟨of_decide_eq_true hn, hat, hcur⟩
  write_u64_as_uleb128 _ := rfl
  load_signature_token := by
    intro cur t cur' h
    obtain ⟨x, hx, hpair⟩ := Collect.map_eq_ok.mp h
    obtain ⟨-, hat, hcur⟩ := readWith_sound ConstantType.codec (ConstantType.write_ne_nil x.1) hx
    exact ⟨_, ConstantType.write_ne_nil x.1, hat, (congrArg Prod.snd hpair).symm.trans hcur⟩
  load_constant_size h := by
    obtain ⟨hn, hat, hcur⟩ := readWith_sound Uleb.codec (Uleb.write_ne_nil _) h
    exact ⟨of_decide_eq_true hn, hat, hcur⟩
  constant_size_max := by decide

/-- A file with a table of one address, and a constant of type `address`. -/
def twoGrowingTables : List UInt8 :=
  preamble ++ [2, 8, 0, 16, 6, 16, 18] ++ List.replicate 16 1 ++ [5, 16] ++ List.replicate 16 2

theorem twoGrowingTables_growth : growthIn libraVm 100 twoGrowingTables 15 (8, 0, 16) = 4 ∧
    growthIn libraVm 100 twoGrowingTables 15 (6, 16, 18) = 4 := by
  decide +kernel

theorem twoGrowingTables_fits : FitsU32 libraVm 100 twoGrowingTables := by
  have hcheck : libraVm.checkBinary ⟨twoGrowingTables, 0⟩ = .ok ⟨twoGrowingTables, 8⟩ := rfl
  have hcount : libraVm.readUleb128AsU64 ⟨twoGrowingTables, 8⟩ = .ok (2, ⟨twoGrowingTables, 9⟩) := rfl
  have hread : readHeaders libraVm 2 ⟨twoGrowingTables, 9⟩ =
      .ok ([(8, 0, 16), (6, 16, 18)], ⟨twoGrowingTables, 15⟩) := rfl
  obtain ⟨haddresses, hpool⟩ := twoGrowingTables_growth
  apply (fitsU32_iff hcheck hcount hread).mpr
  refine ⟨by decide, headersFitFrom_cons.mpr ⟨?_, fun _ => headersFitFrom_cons.mpr ⟨?_, ?_⟩⟩⟩
  · constructor <;> simp [haddresses]
  · constructor <;> simp [haddresses, hpool]
  · intro _ before x after hsplit
    simp at hsplit

theorem adapt_safe_twoGrowingTables : Safe libraVm 100 twoGrowingTables ∧
    adapt libraVm 100 twoGrowingTables = Exact.outcome (Exact.adapt libraVm 100 twoGrowingTables) := by
  have hfuel : twoGrowingTables.length < 100 := by decide
  obtain ⟨hiff, hsame⟩ := adapt_safe_iff libraVm_sound hfuel
  have hsafe := hiff.mpr twoGrowingTables_fits
  exact ⟨hsafe, hsame hsafe⟩

/-- One header, of an address table at the offset `2^32 - 1`. -/
def farAddresses : List UInt8 := preamble ++ [1, 8] ++ Uleb.write (2 ^ 32 - 1) ++ [0]

theorem farAddresses_not_safe : ¬Safe libraVm 100 farAddresses := by
  decide +kernel

end MoveTools.Compat
