import Mathlib.Algebra.BigOperators.Group.List.Basic
import MoveTools.Compat.Pieces

namespace MoveTools.Compat
open Splice

namespace Cursor

@[simp] theorem skip_position (cur : Cursor) (w : List UInt8) :
    (cur.skip w).position = cur.position + w.length := rfl

@[simp] theorem skip_bytes (cur : Cursor) (w : List UInt8) : (cur.skip w).bytes = cur.bytes := rfl

theorem skip_skip (cur : Cursor) (u v : List UInt8) : (cur.skip u).skip v = cur.skip (u ++ v) := by
  simp [skip, setPosition, Nat.add_assoc]

theorem At.append {cur : Cursor} {u v : List UInt8} (h : cur.At (u ++ v)) :
    cur.At u ∧ (cur.skip u).At v := by
  obtain ⟨rest, hr⟩ := h
  refine ⟨⟨v ++ rest, by rw [← List.append_assoc, hr]⟩, rest, ?_⟩
  rw [skip_position, skip_bytes, ← List.drop_drop, ← hr, List.append_assoc, List.drop_left]

theorem at_of_append (u v rest : List UInt8) {p : ℕ} (hp : p = u.length) :
    At ⟨u ++ (v ++ rest), p⟩ v :=
  ⟨rest, by simp [hp]⟩

end Cursor

@[simp] theorem orFail_ok {α : Type} (a : α) : orFail (.ok a) = .ok a := rfl

theorem ok_bind {α β : Type} (a : α) (f : α → Except Failure β) :
    (Except.ok a >>= f) = f a := rfl

theorem asU32_of_lt {n : ℕ} (h : n < 2 ^ 32) : asU32 n = n := Nat.mod_eq_of_lt h

theorem addU32_of_lt {a b : ℕ} (h : a + b < 2 ^ 32) : addU32 a b = a + b := Nat.mod_eq_of_lt h

theorem constantGrowth_le {addrLen : ℕ} (hL : addrLen ≤ 32) {c : RawConstant}
    (h : c.1 = .Address → c.2.length = LIBRA_ADDR_LEN) :
    constantGrowth addrLen c ≤ (rawConstantCodec.write c).length := by
  unfold constantGrowth
  split_ifs with ht
  · have hlen := h ht
    simp only [LIBRA_ADDR_LEN] at hlen
    simp only [addressGrowth, LIBRA_ADDR_LEN, rawConstant_write, List.length_append]
    omega
  · exact Nat.zero_le _

theorem poolGrowth_cons (addrLen : ℕ) (c : RawConstant) (cs : List RawConstant) :
    ((c :: cs).filter fun c => c.1 = .Address).length * addressGrowth addrLen =
      constantGrowth addrLen c +
        (cs.filter fun c => c.1 = .Address).length * addressGrowth addrLen := by
  by_cases ht : c.1 = .Address
  · simp [constantGrowth, ht]
    ring
  · simp [constantGrowth, ht]

theorem poolGrowth_le {addrLen : ℕ} (hL : addrLen ≤ 32) {cs : List RawConstant}
    (h : ∀ c ∈ cs, c.1 = .Address → c.2.length = LIBRA_ADDR_LEN) :
    (cs.filter fun c => c.1 = .Address).length * addressGrowth addrLen ≤
      (rawConstantCodec.writeAll cs).length := by
  induction cs with
  | nil => simp
  | cons c cs ih =>
    have hc := constantGrowth_le hL (h c List.mem_cons_self)
    have hcs := ih fun d hd => h d (List.mem_cons_of_mem c hd)
    rw [poolGrowth_cons, Codec.writeAll_cons, List.length_append]
    exact Nat.add_le_add hc hcs

theorem tableGrowth_le {addrLen : ℕ} (hL : addrLen ≤ 32) (t : Table LIBRA_ADDR_LEN) :
    tableGrowth addrLen t ≤ t.raw.2.length := by
  cases t with
  | addressIdentifiers as =>
    have hlen : (Table.addressIdentifiers as).raw.2.length = as.length * LIBRA_ADDR_LEN :=
      addresses_length as
    rw [hlen]
    apply Nat.mul_le_mul_left as.length
    simp only [addressGrowth, LIBRA_ADDR_LEN]
    omega
  | constantPool cs =>
    apply poolGrowth_le hL
    intro c hc
    obtain ⟨d, _, rfl⟩ := List.mem_map.mp hc
    exact constant_address_length d
  | other kind contents _ _ => exact (Nat.zero_mul _).trans_le (Nat.zero_le _)

section
variable {vm : Vm} {limits : Limits} (hvm : vm.FollowsFormat limits) {addrLen : ℕ}

include hvm

theorem makeUleb128Diff_ok {n : ℕ} (h : n < 2 ^ 32) (startPos endPos : ℕ) (m : Mutator) :
    makeUleb128Diff vm startPos endPos n m = .ok (m.makeDiff startPos endPos (Uleb.write n)) := by
  rw [makeUleb128Diff, hvm.write_u64_as_uleb128 (by omega)]
  rfl

theorem constPoolLoop_constant {c : RawConstant} {cur : Cursor} {endOffset fuel additional : ℕ}
    {m : Mutator} (hat : cur.At (rawConstantCodec.write c))
    (hdepth : c.1.depth ≤ limits.signatureTokenDepthMax)
    (hsize : c.2.length ≤ limits.constantSizeMax) (hin : cur.position < endOffset)
    (hlen32 : c.2.length < 2 ^ 32)
    (haddress : c.1 = .Address → c.2.length + addressGrowth addrLen < 2 ^ 32)
    (hsmall : additional + constantGrowth addrLen c < 2 ^ 32) :
    constPoolLoop vm addrLen endOffset (fuel + 1) cur additional m =
      constPoolLoop vm addrLen endOffset fuel (cur.skip (rawConstantCodec.write c))
        (additional + constantGrowth addrLen c)
        ⟨m.diff ++ diffsAt cur.position (constantPieces addrLen c)⟩ := by
  obtain ⟨t, w⟩ := c
  rw [rawConstant_write] at hat ⊢
  obtain ⟨htoken, hat⟩ := hat.append
  obtain ⟨hlen, hdata⟩ := hat.append
  have h1 := hvm.load_signature_token hdepth htoken
  have h2 := hvm.load_constant_size hsize hlen
  have h3 : asU32 w.length = w.length := asU32_of_lt hlen32
  rw [constPoolLoop, if_pos hin, h1, orFail_ok, ok_bind]
  simp only [h2, orFail_ok, ok_bind, h3]
  have hskip : (((cur.skip t.write).skip (Uleb.write w.length)).setPosition
      (((cur.skip t.write).skip (Uleb.write w.length)).position + w.length)) =
      cur.skip (t.write ++ (Uleb.write w.length ++ w)) := by
    simp [Cursor.skip, Cursor.setPosition, Nat.add_assoc]
  -- only the type `address` itself grows
  by_cases ht : t = .Address
  · subst ht
    have hgrowth : constantGrowth addrLen (.Address, w) = addressGrowth addrLen := if_pos rfl
    have hgrow : addU32 w.length (addrLen - LIBRA_ADDR_LEN) = w.length + addressGrowth addrLen :=
      addU32_of_lt (haddress rfl)
    have hadd : addU32 additional (addrLen - LIBRA_ADDR_LEN) =
        additional + addressGrowth addrLen := by
      rw [hgrowth] at hsmall
      exact addU32_of_lt hsmall
    simp only [ConstantType.token, hgrow, hadd, ok_bind, hskip,
      makeUleb128Diff_ok hvm (haddress rfl)]
    simp [hgrowth, constantPieces, diffsAt, Mutator.makeDiff, Nat.add_assoc]
  · have hother : constantPieces addrLen (t, w) = [.keep (rawConstantCodec.write (t, w))] :=
      if_neg ht
    rw [hskip, hother, constantGrowth, if_neg ht]
    cases t with
    | Address => exact absurd rfl ht
    | _ => simp [ConstantType.token, diffsAt]

/-- The pool is read constant by constant; no fuel is left over or missing as long as there is
more of it than bytes. -/
theorem constPoolLoop_pool (hL : addrLen ≤ 32) {cs : List RawConstant} {cur : Cursor}
    (fuel additional : ℕ) (m : Mutator) (hat : cur.At (rawConstantCodec.writeAll cs))
    (hlimits : ∀ c ∈ cs, c.1.depth ≤ limits.signatureTokenDepthMax ∧
      c.2.length ≤ limits.constantSizeMax)
    (haddress : ∀ c ∈ cs, c.1 = .Address → c.2.length = LIBRA_ADDR_LEN)
    (hfuel : (rawConstantCodec.writeAll cs).length < fuel)
    (hlen : (rawConstantCodec.writeAll cs).length < 2 ^ 32)
    (hsmall : additional +
      (cs.filter fun c => c.1 = .Address).length * addressGrowth addrLen < 2 ^ 32) :
    constPoolLoop vm addrLen (cur.position + (rawConstantCodec.writeAll cs).length) fuel cur
        additional m =
      .ok (additional + (cs.filter fun c => c.1 = .Address).length * addressGrowth addrLen,
        ⟨m.diff ++ diffsAt cur.position (cs.flatMap (constantPieces addrLen))⟩) := by
  induction cs generalizing cur fuel additional m with
  | nil =>
    obtain ⟨k, rfl⟩ := Nat.exists_eq_add_of_lt hfuel
    simp [constPoolLoop, diffsAt]
  | cons c cs ih =>
    obtain ⟨hc, hcs⟩ := Cursor.At.append (hat : cur.At (rawConstantCodec.write c ++ _))
    obtain ⟨hdepth, hsize⟩ := hlimits c List.mem_cons_self
    have hpos := List.length_pos_iff.mpr (rawConstant_ne_nil c)
    have hdata : c.2.length ≤ (rawConstantCodec.write c).length := by
      simp [rawConstant_write]
      omega
    rw [poolGrowth_cons] at hsmall ⊢
    rw [Codec.writeAll_cons, List.length_append] at hfuel hlen ⊢
    obtain ⟨f, rfl⟩ : ∃ f, fuel = f + 1 := ⟨fuel - 1, by omega⟩
    have htail := ih f (additional + constantGrowth addrLen c)
      ⟨m.diff ++ diffsAt cur.position (constantPieces addrLen c)⟩ hcs
      (fun d hd => hlimits d (List.mem_cons_of_mem _ hd))
      (fun d hd => haddress d (List.mem_cons_of_mem _ hd)) (by omega) (by omega) (by omega)
    rw [Cursor.skip_position, Nat.add_assoc] at htail
    -- the longer addresses still have a length that a u32 holds
    have hwide : c.1 = .Address → c.2.length + addressGrowth addrLen < 2 ^ 32 := by
      intro ht
      have h16 := haddress c List.mem_cons_self ht
      simp only [LIBRA_ADDR_LEN] at h16
      simp only [addressGrowth, LIBRA_ADDR_LEN]
      omega
    rw [constPoolLoop_constant hvm hc hdepth hsize (by omega) (by omega) hwide (by omega), htail,
      List.flatMap_cons, diffsAt_append, constantPieces_source, List.append_assoc, Nat.add_assoc]

omit hvm in
theorem addressDiffs (as : List (Address LIBRA_ADDR_LEN)) (position k : ℕ) :
    diffsAt (position + k) (as.flatMap fun a => [.sub [] zeros true, .keep a.1]) =
      (List.range' k as.length LIBRA_ADDR_LEN).map fun idx =>
        ⟨⟨position + idx, position + idx⟩, zeros⟩ := by
  induction as generalizing k with
  | nil => rfl
  | cons a as ih =>
    have htail := ih (k + LIBRA_ADDR_LEN)
    rw [← Nat.add_assoc] at htail
    rw [List.flatMap_cons, List.length_cons, List.range'_succ, List.map_cons, ← htail]
    change _ :: diffsAt (position + k + 0 + a.1.length) _ = _
    rw [a.2]
    rfl

omit hvm in
theorem foldl_makeDiff (indices : List ℕ) (position : ℕ) (m : Mutator) :
    indices.foldl (fun mutator idx => mutator.makeDiff (position + idx) (position + idx) zeros) m =
      ⟨m.diff ++ indices.map fun idx => ⟨⟨position + idx, position + idx⟩, zeros⟩⟩ := by
  induction indices generalizing m with
  | nil => simp
  | cons i is ih =>
    rw [List.foldl_cons, ih]
    simp [Mutator.makeDiff]

omit hvm in
theorem handleAddressIdentifiers_addresses (as : List (Address LIBRA_ADDR_LEN)) (ctx : TableContext)
    (m : Mutator) (hlen : ctx.len = as.length * LIBRA_ADDR_LEN) :
    handleAddressIdentifiers addrLen ctx m =
      (as.length * addressGrowth addrLen, ⟨m.diff ++ diffsAt ctx.position
        (as.flatMap fun a => [.sub [] zeros true, .keep a.1])⟩) := by
  have hdiv : ctx.len / LIBRA_ADDR_LEN = as.length := by
    rw [hlen]
    exact Nat.mul_div_cancel _ (by decide)
  have hround : (ctx.len + LIBRA_ADDR_LEN - 1) / LIBRA_ADDR_LEN = as.length := by
    rw [hlen]
    change (as.length * 16 + 16 - 1) / 16 = as.length
    omega
  have hdiffs := addressDiffs as ctx.position 0
  rw [Nat.add_zero] at hdiffs
  rw [handleAddressIdentifiers, if_pos (by rw [hlen]; exact Nat.mul_mod_left _ _), hdiv, hround,
    hdiffs]
  simp only [foldl_makeDiff]
  rfl

/-- The constants of a table are within the limits of the loader. -/
def Table.Loadable (limits : Limits) (t : Table LIBRA_ADDR_LEN) : Prop :=
  ∀ c ∈ t.constants, c.raw.1.depth ≤ limits.signatureTokenDepthMax ∧
    c.raw.2.length ≤ limits.constantSizeMax

theorem handleTable_ok (hL : addrLen ≤ 32) {t : Table LIBRA_ADDR_LEN} {fuel : ℕ}
    (ctx : TableContext) (m : Mutator) (hat : ctx.cursor.At t.raw.2)
    (hlen : ctx.len = t.raw.2.length) (ht : t.Loadable limits) (hfuel : t.raw.2.length < fuel)
    (hsmall : t.raw.2.length < 2 ^ 32) :
    handleTable vm addrLen fuel t.raw.1 ctx m =
      .ok (tableGrowth addrLen t, ⟨m.diff ++ diffsAt ctx.position (tablePieces addrLen t)⟩) := by
  cases t with
  | addressIdentifiers as =>
    have hlen' : ctx.len = as.length * LIBRA_ADDR_LEN := hlen.trans (addresses_length as)
    exact (if_pos rfl).trans (congrArg _ (handleAddressIdentifiers_addresses as ctx m hlen'))
  | constantPool cs =>
    have hlimits : ∀ c ∈ cs.map Constant.raw, c.1.depth ≤ limits.signatureTokenDepthMax ∧
        c.2.length ≤ limits.constantSizeMax := by
      intro c hc
      obtain ⟨d, hd, rfl⟩ := List.mem_map.mp hc
      exact ht d hd
    have haddress : ∀ c ∈ cs.map Constant.raw, c.1 = .Address → c.2.length = LIBRA_ADDR_LEN := by
      intro c hc
      obtain ⟨d, _, rfl⟩ := List.mem_map.mp hc
      exact constant_address_length d
    have hgrowth := poolGrowth_le hL haddress
    have hpool := constPoolLoop_pool hvm hL fuel 0 m hat hlimits haddress hfuel hsmall (by
      simp only [Table.raw] at hsmall
      omega)
    change handleTable vm addrLen fuel TableType.CONSTANT_POOL ctx m = _
    rw [handleTable, if_neg TableType.pool_ne_addresses, if_pos rfl, handleConstPool, hlen,
      TableContext.position]
    rw [Nat.zero_add] at hpool
    exact hpool
  | other kind bytes hp ha =>
    change handleTable vm addrLen fuel kind ctx m = _
    rw [handleTable, if_neg ha, if_neg hp]
    simp [tableGrowth, insertions, tablePieces, diffsAt]

theorem numberPiece_ok (n growth p : ℕ) (m : Mutator) :
    (if growth > 0 then makeUleb128Diff vm p (p + (Uleb.write n).length) (addU32 n growth) m
      else .ok m) = .ok ⟨m.diff ++ diffsAt p [numberPiece n growth]⟩ := by
  have hsmall : addU32 n growth < 2 ^ 32 := Nat.mod_lt _ (by norm_num)
  rw [makeUleb128Diff_ok hvm hsmall, numberPiece]
  split_ifs
  · rfl
  · simp [diffsAt]

omit hvm in
theorem headerPieces_diffs (p additional : ℕ) (x : Placed LIBRA_ADDR_LEN) :
    diffsAt p (headerPieces addrLen additional x) =
      diffsAt (p + 1) [numberPiece x.1 additional] ++
        diffsAt (p + 1 + (Uleb.write x.1).length)
          [numberPiece x.2.raw.2.length (tableGrowth addrLen x.2)] := by
  have := diffsAt_append (p + 1) [numberPiece x.1 additional]
    [numberPiece x.2.raw.2.length (tableGrowth addrLen x.2)]
  simpa [headerPieces, diffsAt] using this

structure Reads (limits : Limits) (bytes : List UInt8) (fuel start : ℕ)
    (x : Placed LIBRA_ADDR_LEN) : Prop where
  body : Cursor.At ⟨bytes, x.1 + start⟩ x.2.raw.2
  loadable : x.2.Loadable limits
  fuel : x.2.raw.2.length < fuel
  position_lt : x.1 + start < 2 ^ 32
  length_lt : x.2.raw.2.length < 2 ^ 32

theorem makeTableDiff_ok (hL : addrLen ≤ 32) {x : Placed LIBRA_ADDR_LEN} {s : DiffState}
    {fuel headerLen headerSize : ℕ} (hhead : s.cur.At (headerCodec.write x.header))
    (hx : Reads limits s.cur.bytes fuel (headerSize + headerLen) x)
    (hsmall : s.additionalOffset + tableGrowth addrLen x.2 < 2 ^ 32) :
    makeTableDiff vm addrLen fuel headerLen headerSize s = .ok
      { cur := s.cur.skip (headerCodec.write x.header)
        mutator := ⟨s.mutator.diff ++ diffsAt (s.cur.position + 1)
            [numberPiece x.1 s.additionalOffset] ++
          diffsAt (x.1 + (headerSize + headerLen)) (tablePieces addrLen x.2) ++
          diffsAt (s.cur.position + 1 + (Uleb.write x.1).length)
            [numberPiece x.2.raw.2.length (tableGrowth addrLen x.2)]⟩
        additionalOffset := s.additionalOffset + tableGrowth addrLen x.2 } := by
  have hposition := hx.position_lt
  have hlength := hx.length_lt
  rw [Placed.header, header_write] at hhead ⊢
  obtain ⟨hkind, hhead⟩ := hhead.append
  obtain ⟨hoff, hlen⟩ := hhead.append
  have h1 := hvm.read_u8 hkind
  have h2 := hvm.read_uleb128_as_u64 (by omega) hoff
  have h3 := hvm.read_uleb128_as_u64 (by omega) hlen
  -- the offset, the contents and the length of the table, in this order
  have hpos : addU32 (addU32 x.1 headerSize) headerLen = x.1 + (headerSize + headerLen) := by
    have : addU32 x.1 headerSize = x.1 + headerSize := addU32_of_lt (by omega)
    rw [this, addU32_of_lt (by omega), Nat.add_assoc]
  have hfirst := numberPiece_ok hvm x.1 s.additionalOffset (s.cur.position + 1) s.mutator
  have htable := handleTable_ok hvm hL
    (TableContext.new (((s.cur.skip [x.2.raw.1]).skip (Uleb.write x.1)).skip
      (Uleb.write x.2.raw.2.length)) (x.1 + (headerSize + headerLen)) x.2.raw.2.length)
    ⟨s.mutator.diff ++ diffsAt (s.cur.position + 1) [numberPiece x.1 s.additionalOffset]⟩
    hx.body rfl hx.loadable hx.fuel hlength
  have hlast := numberPiece_ok hvm x.2.raw.2.length (tableGrowth addrLen x.2)
    (s.cur.position + 1 + (Uleb.write x.1).length)
    ⟨s.mutator.diff ++ diffsAt (s.cur.position + 1) [numberPiece x.1 s.additionalOffset] ++
      diffsAt (x.1 + (headerSize + headerLen)) (tablePieces addrLen x.2)⟩
  simp only [makeTableDiff, h1, h2, h3, orFail_ok, ok_bind, asU32_of_lt (show x.1 < 2 ^ 32 by omega),
    asU32_of_lt hlength, Cursor.skip_position, List.length_singleton, hpos, hfirst, htable]
  simp only [TableContext.new, TableContext.position, Cursor.setPosition, TableContext.drop,
    Cursor.skip_position, List.length_singleton, hlast, ok_bind, addU32_of_lt hsmall]
  apply congrArg (fun cur => Except.ok (DiffState.mk cur _ _))
  simp [Cursor.skip, Cursor.setPosition, Nat.add_assoc, Nat.add_comm]

omit hvm in
theorem perm_round {α : Type} (m a t l hs rs : List α) :
    (m ++ a ++ t ++ l ++ (hs ++ rs)).Perm (m ++ (a ++ l ++ hs ++ (t ++ rs))) := by
  have hmove : (t ++ (l ++ hs) ++ rs).Perm (l ++ hs ++ t ++ rs) :=
    List.perm_append_comm.append_right rs
  simpa only [List.append_assoc] using (hmove.append_left a).append_left m

def bodyDiffs (addrLen start : ℕ) (hs : List (Placed LIBRA_ADDR_LEN)) : List Diff :=
  hs.flatMap fun x => diffsAt (x.1 + start) (tablePieces addrLen x.2)

/-- The diffs of a table are made between those of its own header, the ones of the headers behind
it later: the order is that of the pieces only up to a permutation. -/
theorem makeTableDiffs_ok (hL : addrLen ≤ 32) (hs : List (Placed LIBRA_ADDR_LEN)) (s : DiffState)
    {fuel headerLen headerSize : ℕ}
    (hhead : s.cur.At (headerCodec.writeAll (hs.map Placed.header)))
    (hbody : ∀ x ∈ hs, Reads limits s.cur.bytes fuel (headerSize + headerLen) x)
    (hsmall : s.additionalOffset + (hs.map fun x => tableGrowth addrLen x.2).sum < 2 ^ 32) :
    ∃ s', makeTableDiffs vm addrLen fuel headerLen headerSize hs.length s = .ok s' ∧
      s'.mutator.diff.Perm (s.mutator.diff ++
        (diffsAt s.cur.position (headersPieces addrLen s.additionalOffset hs) ++
          bodyDiffs addrLen (headerSize + headerLen) hs)) := by
  induction hs generalizing s with
  | nil => exact ⟨s, rfl, by simp [headersPieces, diffsAt, bodyDiffs]⟩
  | cons x hs ih =>
    obtain ⟨hh, hhs⟩ := Cursor.At.append (hhead : s.cur.At (headerCodec.write x.header ++ _))
    rw [List.map_cons, List.sum_cons] at hsmall
    have hround := makeTableDiff_ok hvm hL hh (hbody x List.mem_cons_self) (by omega)
    obtain ⟨s', hrun, hperm⟩ := ih ⟨_, _, s.additionalOffset + tableGrowth addrLen x.2⟩ hhs
      (fun y hy => hbody y (List.mem_cons_of_mem x hy)) (by simp only; omega)
    refine ⟨s', ?_, hperm.trans ?_⟩
    · rw [List.length_cons, makeTableDiffs, hround]
      exact hrun
    · rw [headersPieces, diffsAt_append, headerPieces_source, headerPieces_diffs]
      exact perm_round ..

theorem skipHeaders_ok (hs : List TableHeader) {cur : Cursor}
    (hat : cur.At (headerCodec.writeAll hs)) (hsmall : ∀ h ∈ hs, h.2.1 < 2 ^ 64 ∧ h.2.2 < 2 ^ 64) :
    skipHeaders vm hs.length cur = .ok (cur.skip (headerCodec.writeAll hs)) := by
  induction hs generalizing cur with
  | nil => rfl
  | cons header hs ih =>
    obtain ⟨kind, offset, len⟩ := header
    obtain ⟨hhead, hat⟩ := Cursor.At.append
      (hat : cur.At (headerCodec.write (kind, offset, len) ++ _))
    rw [header_write] at hhead hat
    obtain ⟨hkind, hhead⟩ := hhead.append
    obtain ⟨hoff, hlen⟩ := hhead.append
    obtain ⟨hoffset, hlength⟩ := hsmall _ List.mem_cons_self
    have h1 := hvm.read_u8 hkind
    have h2 := hvm.read_uleb128_as_u64 hoffset hoff
    have h3 := hvm.read_uleb128_as_u64 hlength hlen
    have hcur : ((cur.skip [kind]).skip (Uleb.write offset)).skip (Uleb.write len) =
        cur.skip ([kind] ++ (Uleb.write offset ++ Uleb.write len)) := by
      rw [Cursor.skip_skip, Cursor.skip_skip]
    simp only [List.length_cons, skipHeaders, h1, h2, h3, orFail_ok, ok_bind, hcur]
    rw [ih hat fun h hh => hsmall h (List.mem_cons_of_mem _ hh), Cursor.skip_skip]
    rfl

theorem calcHeaderSize_ok (hs : List TableHeader) {cur : Cursor}
    (hat : cur.At (headerCodec.writeAll hs)) (hfit : ∀ h ∈ hs, h.2.1 < 2 ^ 64 ∧ h.2.2 < 2 ^ 64)
    (hsmall : cur.position + (headerCodec.writeAll hs).length < 2 ^ 32) :
    calcHeaderSize vm cur hs.length = .ok ((headerCodec.writeAll hs).length, cur) := by
  have hskip := skipHeaders_ok hvm hs hat hfit
  have hstart : asU32 cur.position = cur.position := asU32_of_lt (by omega)
  simp only [calcHeaderSize, hskip, ok_bind, Cursor.skip_position, hstart, asU32_of_lt hsmall]
  have hsub : subU32 (cur.position + (headerCodec.writeAll hs).length) cur.position =
      (headerCodec.writeAll hs).length := by
    rw [subU32]
    omega
  rw [hsub]
  rfl

omit hvm in
theorem reads_of_place {ts : List (Table LIBRA_ADDR_LEN)} {bytes : List UInt8}
    {fuel start offset : ℕ} (hat : Cursor.At ⟨bytes, offset + start⟩ (contents (ts.map Table.raw)))
    (hload : ∀ t ∈ ts, t.Loadable limits) (hfuel : (contents (ts.map Table.raw)).length < fuel)
    (hsmall : offset + start + (contents (ts.map Table.raw)).length < 2 ^ 32) :
    ∀ x ∈ place offset ts, Reads limits bytes fuel start x := by
  induction ts generalizing offset with
  | nil => exact fun x hx => absurd hx List.not_mem_nil
  | cons t ts ih =>
    have hcontents : contents ((t :: ts).map Table.raw) =
        t.raw.2 ++ contents (ts.map Table.raw) := rfl
    rw [hcontents] at hat
    rw [hcontents, List.length_append] at hfuel hsmall
    obtain ⟨hbody, hrest⟩ := hat.append
    intro x hx
    rcases List.mem_cons.mp hx with rfl | hx
    · exact ⟨hbody, hload t List.mem_cons_self, by simp only; omega, by simp only; omega,
        by simp only; omega⟩
    · have hnext : offset + t.raw.2.length + start = offset + start + t.raw.2.length := by omega
      refine @ih (offset + t.raw.2.length) ?_ (fun u hu => hload u (List.mem_cons_of_mem t hu))
        (by omega) (by omega) x hx
      rw [hnext]
      exact hrest

omit hvm in
theorem bodyDiffs_place (start offset : ℕ) (ts : List (Table LIBRA_ADDR_LEN)) :
    bodyDiffs addrLen start (place offset ts) =
      diffsAt (offset + start) (ts.flatMap (tablePieces addrLen)) := by
  induction ts generalizing offset with
  | nil => rfl
  | cons t ts ih =>
    have hnext : offset + t.raw.2.length + start = offset + start + t.raw.2.length := by omega
    rw [place, bodyDiffs, List.flatMap_cons, ← bodyDiffs, ih, List.flatMap_cons, diffsAt_append,
      tablePieces_source, hnext]

omit hvm in
theorem growth_place_le (hL : addrLen ≤ 32) (offset : ℕ) (ts : List (Table LIBRA_ADDR_LEN)) :
    ((place offset ts).map fun x => tableGrowth addrLen x.2).sum ≤
      (contents (ts.map Table.raw)).length := by
  induction ts generalizing offset with
  | nil => exact le_rfl
  | cons t ts ih =>
    have ht := tableGrowth_le hL t
    have hcontents : (contents ((t :: ts).map Table.raw)).length =
        t.raw.2.length + (contents (ts.map Table.raw)).length := by
      simp [contents]
    rw [place, List.map_cons, List.sum_cons, hcontents]
    exact Nat.add_le_add ht (ih _)

omit hvm in
/-- The differences of the headers and of the tables are those between the pieces. -/
theorem diffs_perm_pieces {M : CompiledUnit LIBRA_ADDR_LEN} {hs : List (Placed LIBRA_ADDR_LEN)}
    (hperm : hs.Perm (place 0 M.tables)) :
    (diffsAt M.headerStart.length (headersPieces addrLen 0 hs) ++ bodyDiffs addrLen
      ((headerCodec.writeAll (hs.map Placed.header)).length + M.headerStart.length) hs).Perm
        (diffsAt 0 (M.pieces addrLen hs)) := by
  obtain ⟨start, hstart⟩ : ∃ n, n = (headerCodec.writeAll (hs.map Placed.header)).length +
      M.headerStart.length := ⟨_, rfl⟩
  rw [← hstart]
  have hbodies : (bodyDiffs addrLen start hs).Perm (bodyDiffs addrLen start (place 0 M.tables)) :=
    hperm.flatMap_right _
  rw [bodyDiffs_place] at hbodies
  have hpieces : diffsAt 0 (M.pieces addrLen hs) =
      diffsAt M.headerStart.length (headersPieces addrLen 0 hs) ++
        diffsAt (0 + start) (M.tables.flatMap (tablePieces addrLen)) := by
    simp [CompiledUnit.pieces, diffsAt, headersPieces_source, hstart, Nat.add_comm]
  rw [hpieces]
  exact hbodies.append_left _

/-- What `adapt` does to every binary, whatever the order of its headers: four bytes are inserted
for each address of the address table and for each constant of type `address`, in one pass. -/
theorem adaptFor_serializeWith (hL : addrLen ≤ 32) {M : CompiledUnit LIBRA_ADDR_LEN}
    {hs : List (Placed LIBRA_ADDR_LEN)} (hperm : hs.Perm (place 0 M.tables)) {fuel : ℕ}
    (hload : ∀ t ∈ M.tables, t.Loadable limits) (hfuel : (M.serializeWith hs).length ≤ fuel)
    (hsmall : (M.serializeWith hs).length < 2 ^ 32) :
    adaptFor vm addrLen fuel (M.serializeWith hs) = .ok (M.inserted addrLen hs) := by
  obtain ⟨bytes, hbytes⟩ : ∃ bytes, bytes = M.serializeWith hs := ⟨_, rfl⟩
  obtain ⟨headers, hheaders⟩ : ∃ headers, headers = headerCodec.writeAll (hs.map Placed.header) :=
    ⟨_, rfl⟩
  have hparts : bytes = M.headerStart ++ (headers ++
      (contents (M.tables.map Table.raw) ++ M.trailing)) := by
    rw [hbytes, hheaders]
    rfl
  have hlength := congrArg List.length hparts
  simp only [List.length_append] at hlength
  rw [← hbytes] at hfuel hsmall ⊢
  have hmagic : 8 ≤ M.headerStart.length := by simp [CompiledUnit.headerStart, preamble]
  have hnumber : hs.length = M.tables.length := hperm.length_eq.trans (place_length 0 _)
  -- the count, the headers and the contents of the tables, where they lie
  have hpre : preamble <+: bytes := ⟨_, by rw [hparts]; exact (List.append_assoc ..).symm⟩
  have hcount : Cursor.At ⟨bytes, preamble.length⟩ (Uleb.write M.tables.length) := by
    rw [hparts, CompiledUnit.headerStart, List.append_assoc]
    exact Cursor.at_of_append _ _ _ rfl
  have hhead : Cursor.At ⟨bytes, M.headerStart.length⟩
      (headerCodec.writeAll (hs.map Placed.header)) := by
    rw [hparts, hheaders]
    exact Cursor.at_of_append _ _ _ rfl
  have hbody : Cursor.At ⟨bytes, 0 + (headers.length + M.headerStart.length)⟩
      (contents (M.tables.map Table.raw)) := by
    rw [hparts, ← List.append_assoc]
    exact Cursor.at_of_append _ _ _ (by rw [List.length_append]; omega)
  have hreads : ∀ x ∈ hs, Reads limits bytes fuel (headers.length + M.headerStart.length) x :=
    fun x hx => reads_of_place hbody hload (by omega) (by omega) x (hperm.mem_iff.mp hx)
  have hfit : ∀ h ∈ hs.map Placed.header, h.2.1 < 2 ^ 64 ∧ h.2.2 < 2 ^ 64 := by
    intro h hh
    obtain ⟨x, hx, rfl⟩ := List.mem_map.mp hh
    have hposition := (hreads x hx).position_lt
    have hlen := (hreads x hx).length_lt
    simp only [Placed.header]
    omega
  have hgrowth : (hs.map fun x => tableGrowth addrLen x.2).sum ≤
      (contents (M.tables.map Table.raw)).length := by
    rw [(hperm.map _).sum_eq]
    exact growth_place_le hL 0 M.tables
  -- the run
  have hheaderCount : M.tables.length ≤ headers.length := by
    rw [hheaders, ← hnumber, ← List.length_map]
    exact headers_count_le _
  have hread := hvm.read_uleb128_as_u64 (by omega) hcount
  have hcur : Cursor.skip ⟨bytes, preamble.length⟩ (Uleb.write M.tables.length) =
      ⟨bytes, M.headerStart.length⟩ := by
    simp [Cursor.skip, Cursor.setPosition, CompiledUnit.headerStart]
  have hsize := calcHeaderSize_ok hvm (hs.map Placed.header) hhead hfit (by
    rw [← hheaders]
    simp only
    omega)
  rw [List.length_map, hnumber, ← hheaders] at hsize
  obtain ⟨s', hrun, hdiff⟩ := makeTableDiffs_ok hvm hL hs
    ⟨⟨bytes, M.headerStart.length⟩, Mutator.new, 0⟩ hhead hreads (by simp only; omega)
  have hdiffs : s'.mutator.diff.Perm (diffsAt 0 (M.pieces addrLen hs)) := by
    rw [hheaders] at hdiff
    exact hdiff.trans (diffs_perm_pieces hperm)
  have hmutate := Mutator.mutate_pieces hdiffs (M.pieces_separated addrLen hs)
  rw [M.pieces_source, M.pieces_target, ← hbytes] at hmutate
  rw [hnumber] at hrun
  simp only [adaptFor, makeDiff, hvm.check_binary hpre, orFail_ok, ok_bind, hread, hcur, hsize,
    asU32_of_lt (show M.headerStart.length < 2 ^ 32 by omega), hrun, pure, Except.pure, hmutate]

/-- With headers in the order of the tables, as long as the binary stays addressable: the addresses
of the address table and the constants of type `address` are widened consistently. -/
theorem adapt_serialize {M : CompiledUnit LIBRA_ADDR_LEN} {fuel : ℕ}
    (hload : ∀ t ∈ M.tables, t.Loadable limits) (hfuel : M.serialize.length ≤ fuel)
    (hsmall : M.adapted.length < 2 ^ 32) : adapt vm fuel M.serialize = .ok M.adapted := by
  have hle : M.serialize.length ≤ M.adapted.length := by
    have := (notShorter_adapted M.tables).binary_le
    simp only [CompiledUnit.serialize, CompiledUnit.adapted, List.length_append]
    omega
  rw [CompiledUnit.serialize_eq] at hfuel hle ⊢
  rw [← CompiledUnit.inserted_place hsmall]
  exact adaptFor_serializeWith hvm (by decide) (.refl _) hload hfuel (hle.trans_lt hsmall)

end
end MoveTools.Compat
