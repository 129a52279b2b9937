import MoveTools.Compat.Adapt

namespace MoveTools.Compat
open Splice

/-! What `adapt` is to write, as pieces of the binary it reads. -/

abbrev zeros : List UInt8 := [0, 0, 0, 0]

def widen (a : Address LIBRA_ADDR_LEN) : Address DFIN_ADDR_LEN :=
  ⟨zeros ++ a.1, by rw [List.length_append, a.2]; rfl⟩

abbrev Row := List (Piece (List UInt8))

/-- A constant as `adapt` leaves it: only the type `address` itself is looked at. -/
def adaptedConstant (c : RawConstant) : RawConstant :=
  (c.1, if c.1 = .Address then zeros ++ c.2 else c.2)

theorem rawConstant_write (c : RawConstant) :
    rawConstantCodec.write c = c.1.write ++ (Uleb.write c.2.length ++ c.2) := rfl

section
variable (addrLen : ℕ)

/-- How much longer an address is said to become. What is inserted are always four bytes. -/
def addressGrowth : ℕ := addrLen - LIBRA_ADDR_LEN

def constantGrowth (c : RawConstant) : ℕ := if c.1 = .Address then addressGrowth addrLen else 0

def constantPieces (c : RawConstant) : Row :=
  if c.1 = .Address then
    [.keep c.1.write, .sub (Uleb.write c.2.length) (Uleb.write (c.2.length + addressGrowth addrLen)) true,
      .sub [] zeros true, .keep c.2]
  else [.keep (rawConstantCodec.write c)]

theorem constantPieces_source (c : RawConstant) :
    sourceText (constantPieces addrLen c) = rawConstantCodec.write c := by
  by_cases h : c.1 = .Address
  · simp [constantPieces, h, rawConstant_write]
  · simp [constantPieces, h]

theorem constantPieces_separated {c : RawConstant} (h : c.1 = .Address → c.2 ≠ []) :
    Separated (constantPieces addrLen c) := by
  by_cases ht : c.1 = .Address
  · have hsize := Separated.sub (Uleb.write (c.2.length + addressGrowth addrLen)) true
      (Uleb.write_ne_nil c.2.length)
    have hdata := Separated.insert zeros true (h ht)
    simpa [constantPieces, ht] using ((Separated.keep c.1.write).append hsize).append hdata
  · simpa [constantPieces, ht] using Separated.keep _

end

theorem constantPieces_target (c : RawConstant) :
    targetText (constantPieces DFIN_ADDR_LEN c) = rawConstantCodec.write (adaptedConstant c) := by
  by_cases h : c.1 = .Address
  · simp [constantPieces, adaptedConstant, h, rawConstant_write, addressGrowth, DFIN_ADDR_LEN,
      LIBRA_ADDR_LEN]
  · obtain ⟨t, w⟩ := c
    simp only at h
    simp [constantPieces, adaptedConstant, h]

theorem adaptedConstant_length {c : RawConstant} (h : c.1 = .Address → c.2.length = LIBRA_ADDR_LEN) :
    (rawConstantCodec.write (adaptedConstant c)).length =
      (rawConstantCodec.write c).length + constantGrowth DFIN_ADDR_LEN c := by
  obtain ⟨t, w⟩ := c
  by_cases ht : t = .Address
  · subst ht
    have hw : w.length = 16 := h rfl
    simp [adaptedConstant, constantGrowth, rawConstant_write, hw, Uleb.write_small, addressGrowth,
      DFIN_ADDR_LEN, LIBRA_ADDR_LEN]
  · simp [adaptedConstant, constantGrowth, ht]

def adaptedTable : Table LIBRA_ADDR_LEN → RawTable
  | .addressIdentifiers as =>
    (TableType.ADDRESS_IDENTIFIERS, Codec.writeAll (Codec.chunk DFIN_ADDR_LEN) (as.map widen))
  | .constantPool cs =>
    (TableType.CONSTANT_POOL,
      rawConstantCodec.writeAll ((cs.map Constant.raw).map adaptedConstant))
  | .other kind contents _ _ => (kind, contents)

section
variable (addrLen : ℕ)

def tablePieces : Table LIBRA_ADDR_LEN → Row
  | .addressIdentifiers as => as.flatMap fun a => [.sub [] zeros true, .keep a.1]
  | .constantPool cs => (cs.map Constant.raw).flatMap (constantPieces addrLen)
  | .other _ contents _ _ => [.keep contents]

def insertions : Table LIBRA_ADDR_LEN → ℕ
  | .addressIdentifiers as => as.length
  | .constantPool cs => ((cs.map Constant.raw).filter fun c => c.1 = .Address).length
  | .other _ _ _ _ => 0

/-- What is recorded as the growth of a table. -/
def tableGrowth (t : Table LIBRA_ADDR_LEN) : ℕ := insertions t * addressGrowth addrLen

def insertedTable (t : Table LIBRA_ADDR_LEN) : RawTable :=
  (t.raw.1, targetText (tablePieces addrLen t))

end

theorem adaptedTable_kind (t : Table LIBRA_ADDR_LEN) : (adaptedTable t).1 = t.raw.1 := by
  cases t <;> rfl

theorem sourceText_flatMap {α : Type} (f : α → Row) (xs : List α) :
    sourceText (xs.flatMap f) = xs.flatMap fun x => sourceText (f x) := by
  simp [sourceText, List.flatMap_assoc]

theorem targetText_flatMap {α : Type} (f : α → Row) (xs : List α) :
    targetText (xs.flatMap f) = xs.flatMap fun x => targetText (f x) := by
  simp [targetText, List.flatMap_assoc]

theorem tablePieces_source (addrLen : ℕ) (t : Table LIBRA_ADDR_LEN) :
    sourceText (tablePieces addrLen t) = t.raw.2 := by
  cases t with
  | addressIdentifiers as =>
    rw [tablePieces, sourceText_flatMap]
    apply congrArg (List.flatMap · as)
    funext a
    simp [Codec.chunk]
  | constantPool cs =>
    rw [tablePieces, sourceText_flatMap]
    simp only [constantPieces_source]
    rfl
  | other kind contents _ _ => simp [tablePieces, Table.raw]

theorem tablePieces_target (t : Table LIBRA_ADDR_LEN) :
    targetText (tablePieces DFIN_ADDR_LEN t) = (adaptedTable t).2 := by
  cases t with
  | addressIdentifiers as =>
    rw [tablePieces, targetText_flatMap, adaptedTable, Codec.writeAll, List.flatMap_map]
    apply congrArg (List.flatMap · as)
    funext a
    simp [Codec.chunk, widen]
  | constantPool cs =>
    rw [tablePieces, targetText_flatMap, adaptedTable, Codec.writeAll, List.flatMap_map adaptedConstant]
    simp only [constantPieces_target]
  | other kind contents _ _ => simp [tablePieces, adaptedTable]

theorem constant_address_length {w : ℕ} (c : Constant w) (h : c.raw.1 = .Address) :
    c.raw.2.length = w := by
  obtain ⟨t, v⟩ := c
  cases h
  exact v.2

theorem constantPool_length (cs : List (Constant LIBRA_ADDR_LEN)) :
    (rawConstantCodec.writeAll ((cs.map Constant.raw).map adaptedConstant)).length =
      (rawConstantCodec.writeAll (cs.map Constant.raw)).length +
        ((cs.map Constant.raw).filter fun c => c.1 = .Address).length * 4 := by
  induction cs with
  | nil => rfl
  | cons c cs ih =>
    have hc := adaptedConstant_length (constant_address_length c)
    simp only [List.map_cons, Codec.writeAll_cons, List.length_append, hc, ih]
    have hgrowth : addressGrowth DFIN_ADDR_LEN = 4 := rfl
    by_cases ht : c.raw.1 = .Address
    · simp [constantGrowth, ht, hgrowth]
      ring
    · simp [constantGrowth, ht]
      ring

theorem addresses_length {w : ℕ} (as : List (Address w)) :
    (Codec.writeAll (Codec.chunk w) as).length = as.length * w := by
  induction as with
  | nil => simp
  | cons a as ih =>
    rw [Codec.writeAll_cons, List.length_append, ih, List.length_cons,
      show ((Codec.chunk w).write a).length = w from a.2]
    ring

theorem adaptedTable_length (t : Table LIBRA_ADDR_LEN) :
    (adaptedTable t).2.length = t.raw.2.length + tableGrowth DFIN_ADDR_LEN t := by
  cases t with
  | addressIdentifiers as =>
    have h16 := addresses_length as
    have h20 := addresses_length (as.map widen)
    rw [List.length_map] at h20
    rw [adaptedTable, tableGrowth, insertions, Table.raw, h16, h20]
    exact Nat.mul_add as.length LIBRA_ADDR_LEN 4
  | constantPool cs => exact constantPool_length cs
  | other kind contents _ _ => rfl

theorem insertedTable_eq (t : Table LIBRA_ADDR_LEN) :
    insertedTable DFIN_ADDR_LEN t = adaptedTable t :=
  Prod.ext (adaptedTable_kind t).symm (tablePieces_target t)

theorem tablePieces_separated (addrLen : ℕ) (t : Table LIBRA_ADDR_LEN) :
    Separated (tablePieces addrLen t) := by
  have hne : ∀ {w : List UInt8}, w.length = LIBRA_ADDR_LEN → w ≠ [] := by
    rintro w hw rfl
    simp [LIBRA_ADDR_LEN] at hw
  cases t with
  | addressIdentifiers as => exact Separated.flatMap fun a _ => Separated.insert _ _ (hne a.2)
  | constantPool cs =>
    apply Separated.flatMap
    intro r hr
    obtain ⟨c, -, rfl⟩ := List.mem_map.mp hr
    exact constantPieces_separated addrLen fun h => hne (constant_address_length c h)
  | other kind contents _ _ => exact Separated.keep _

abbrev Placed (w : ℕ) := ℕ × Table w

def place {w : ℕ} : ℕ → List (Table w) → List (Placed w)
  | _, [] => []
  | offset, t :: ts => (offset, t) :: place (offset + t.raw.2.length) ts

def Placed.header {w : ℕ} (x : Placed w) : TableHeader := (x.2.raw.1, x.1, x.2.raw.2.length)

theorem layout_eq {w : ℕ} (offset : ℕ) (ts : List (Table w)) :
    layout offset (ts.map Table.raw) = (place offset ts).map Placed.header := by
  induction ts generalizing offset with
  | nil => rfl
  | cons t ts ih =>
    rw [List.map_cons, layout, ih]
    rfl

theorem place_length {w : ℕ} (offset : ℕ) (ts : List (Table w)) :
    (place offset ts).length = ts.length := by
  induction ts generalizing offset with
  | nil => rfl
  | cons t ts ih => simp [place, ih]

def recorded (n growth : ℕ) : ℕ := if growth > 0 then addU32 n growth else n

def numberPiece (n growth : ℕ) : Piece (List UInt8) :=
  if growth > 0 then .sub (Uleb.write n) (Uleb.write (addU32 n growth)) true
  else .keep (Uleb.write n)

section
variable (addrLen : ℕ)

/-- The header of a table, behind headers of tables that are said to grow by `additional`. -/
def headerPieces (additional : ℕ) (x : Placed LIBRA_ADDR_LEN) : Row :=
  [.keep [x.2.raw.1], numberPiece x.1 additional,
    numberPiece x.2.raw.2.length (tableGrowth addrLen x.2)]

def headersPieces : ℕ → List (Placed LIBRA_ADDR_LEN) → Row
  | _, [] => []
  | additional, x :: hs =>
    headerPieces addrLen additional x ++ headersPieces (additional + tableGrowth addrLen x.2) hs

def recordedHeader (additional : ℕ) (x : Placed LIBRA_ADDR_LEN) : TableHeader :=
  (x.2.raw.1, recorded x.1 additional, recorded x.2.raw.2.length (tableGrowth addrLen x.2))

def recordedHeaders : ℕ → List (Placed LIBRA_ADDR_LEN) → List TableHeader
  | _, [] => []
  | additional, x :: hs =>
    recordedHeader addrLen additional x :: recordedHeaders (additional + tableGrowth addrLen x.2) hs

@[simp] theorem numberPiece_source (n growth : ℕ) :
    (numberPiece n growth).source = Uleb.write n := by
  unfold numberPiece
  split <;> rfl

@[simp] theorem numberPiece_target (n growth : ℕ) :
    (numberPiece n growth).target = Uleb.write (recorded n growth) := by
  unfold numberPiece recorded
  split <;> rfl

theorem numberPiece_separated (n growth : ℕ) : Separated [numberPiece n growth] := by
  unfold numberPiece
  split
  · exact Separated.sub _ _ (Uleb.write_ne_nil n)
  · exact Separated.keep _

theorem header_write (kind : UInt8) (offset len : ℕ) :
    headerCodec.write (kind, offset, len) = [kind] ++ (Uleb.write offset ++ Uleb.write len) := rfl

theorem headerPieces_source (additional : ℕ) (x : Placed LIBRA_ADDR_LEN) :
    sourceText (headerPieces addrLen additional x) = headerCodec.write x.header := by
  simp [headerPieces, Placed.header, header_write]

theorem headersPieces_source (additional : ℕ) (hs : List (Placed LIBRA_ADDR_LEN)) :
    sourceText (headersPieces addrLen additional hs) =
      headerCodec.writeAll (hs.map Placed.header) := by
  induction hs generalizing additional with
  | nil => rfl
  | cons x hs ih =>
    rw [headersPieces, sourceText_append, headerPieces_source, ih]
    rfl

theorem headersPieces_target (additional : ℕ) (hs : List (Placed LIBRA_ADDR_LEN)) :
    targetText (headersPieces addrLen additional hs) =
      headerCodec.writeAll (recordedHeaders addrLen additional hs) := by
  induction hs generalizing additional with
  | nil => rfl
  | cons x hs ih =>
    rw [headersPieces, targetText_append, ih, recordedHeaders, Codec.writeAll_cons, recordedHeader,
      header_write]
    simp [headerPieces]

theorem headersPieces_separated (additional : ℕ) (hs : List (Placed LIBRA_ADDR_LEN)) :
    Separated (headersPieces addrLen additional hs) := by
  induction hs generalizing additional with
  | nil => exact Separated.nil
  | cons x hs ih =>
    exact (((Separated.keep _).append (numberPiece_separated _ _)).append
      (numberPiece_separated _ _)).append (ih _)

theorem recordedHeaders_length (additional : ℕ) (hs : List (Placed LIBRA_ADDR_LEN)) :
    (recordedHeaders addrLen additional hs).length = hs.length := by
  induction hs generalizing additional with
  | nil => rfl
  | cons x hs ih => simp [recordedHeaders, ih]

end

theorem recorded_of_lt {n growth : ℕ} (h : n + growth < 2 ^ 32) :
    recorded n growth = n + growth := by
  unfold recorded
  split_ifs with hg
  · exact Nat.mod_eq_of_lt h
  · omega

/-- A number that grows is recorded right exactly if it still fits. -/
theorem recorded_eq_iff {n growth : ℕ} (hn : n < 2 ^ 32) :
    recorded n growth = n + growth ↔ n + growth < 2 ^ 32 := by
  constructor
  · intro h
    rw [← h, recorded]
    split_ifs
    · exact Nat.mod_lt _ (by norm_num)
    · exact hn
  · exact recorded_of_lt

/-- Headers in the order of the tables are those of the adapted tables. -/
theorem recordedHeaders_place (offset additional : ℕ) (ts : List (Table LIBRA_ADDR_LEN))
    (h : offset + additional + (contents (ts.map adaptedTable)).length < 2 ^ 32) :
    recordedHeaders DFIN_ADDR_LEN additional (place offset ts) =
      layout (offset + additional) (ts.map adaptedTable) := by
  induction ts generalizing offset additional with
  | nil => rfl
  | cons t ts ih =>
    have hlen := adaptedTable_length t
    have hcontents : (contents ((t :: ts).map adaptedTable)).length =
        (adaptedTable t).2.length + (contents (ts.map adaptedTable)).length := by
      simp [contents]
    have hnext : offset + t.raw.2.length + (additional + tableGrowth DFIN_ADDR_LEN t) =
        offset + additional + (adaptedTable t).2.length := by omega
    have hoffset : recorded offset additional = offset + additional := recorded_of_lt (by omega)
    have hsize : recorded t.raw.2.length (tableGrowth DFIN_ADDR_LEN t) = (adaptedTable t).2.length := by
      rw [recorded_of_lt (by omega), hlen]
    simp only [place, recordedHeaders, recordedHeader, hoffset, hsize]
    rw [ih _ _ (by omega), hnext, List.map_cons, layout, adaptedTable_kind]

/-- Tables that do not shrink, table by table. -/
def NotShorter : List RawTable → List RawTable → Prop :=
  List.Forall₂ fun t u => t.1 = u.1 ∧ t.2.length ≤ u.2.length

theorem NotShorter.contents_le {ts us : List RawTable} (h : NotShorter ts us) :
    (contents ts).length ≤ (contents us).length := by
  induction h with
  | nil => exact le_rfl
  | cons hh _ ih =>
    simp only [contents, List.flatMap_cons, List.length_append] at ih ⊢
    exact Nat.add_le_add hh.2 ih

theorem NotShorter.headers_le {ts us : List RawTable} (h : NotShorter ts us) {m n : ℕ}
    (hmn : m ≤ n) : (headerCodec.writeAll (layout m ts)).length ≤
      (headerCodec.writeAll (layout n us)).length := by
  induction h generalizing m n with
  | nil => exact le_rfl
  | cons hh _ ih =>
    rename_i t u ts us _
    have hnext := ih (Nat.add_le_add hmn hh.2)
    have hoffset := Uleb.length_write_mono hmn
    have hlen := Uleb.length_write_mono hh.2
    simp only [layout, Codec.writeAll_cons, header_write, List.length_append,
      List.length_singleton]
    omega

theorem NotShorter.binary_le {ts us : List RawTable} (h : NotShorter ts us) :
    (tablesCodec.write ts).length ≤ (tablesCodec.write us).length := by
  have hcount : (layout 0 ts).length = (layout 0 us).length := by
    rw [layout_length, layout_length, h.length_eq]
  have hheaders := h.headers_le (Nat.le_refl 0)
  have hcontents := h.contents_le
  simp only [tablesCodec, Uleb.row_write, List.length_append, hcount]
  omega

theorem notShorter_adapted (ts : List (Table LIBRA_ADDR_LEN)) :
    NotShorter (ts.map Table.raw) (ts.map adaptedTable) := by
  induction ts with
  | nil => exact .nil
  | cons t ts ih =>
    refine .cons ⟨(adaptedTable_kind t).symm, ?_⟩ ih
    rw [adaptedTable_length]
    exact Nat.le_add_right _ _

theorem headers_count_le (hs : List TableHeader) :
    hs.length ≤ (headerCodec.writeAll hs).length := by
  induction hs with
  | nil => exact Nat.zero_le _
  | cons h hs ih =>
    obtain ⟨kind, offset, len⟩ := h
    rw [Codec.writeAll_cons, List.length_append, header_write, List.length_append,
      List.length_cons, List.length_singleton]
    omega

namespace CompiledUnit

def headerStart (M : CompiledUnit LIBRA_ADDR_LEN) : List UInt8 :=
  preamble ++ Uleb.write M.tables.length

def binary (M : CompiledUnit LIBRA_ADDR_LEN) (headers : List TableHeader) (tables : List RawTable) :
    List UInt8 :=
  M.headerStart ++ (headerCodec.writeAll headers ++ (contents tables ++ M.trailing))

def serializeWith (M : CompiledUnit LIBRA_ADDR_LEN) (hs : List (Placed LIBRA_ADDR_LEN)) :
    List UInt8 :=
  M.binary (hs.map Placed.header) (M.tables.map Table.raw)

theorem serialize_eq (M : CompiledUnit LIBRA_ADDR_LEN) :
    M.serialize = M.serializeWith (place 0 M.tables) := by
  simp [serialize, serializeWith, binary, tablesCodec, headerStart, layout_length, ← layout_eq]

def pieces (M : CompiledUnit LIBRA_ADDR_LEN) (addrLen : ℕ) (hs : List (Placed LIBRA_ADDR_LEN)) :
    Row :=
  .keep M.headerStart :: (headersPieces addrLen 0 hs ++
    (M.tables.flatMap (tablePieces addrLen) ++ [.keep M.trailing]))

/-- The bytes that `adapt` makes of a binary with headers in the order of the tables. -/
def adapted (M : CompiledUnit LIBRA_ADDR_LEN) : List UInt8 :=
  tablesCodec.write (M.tables.map adaptedTable) ++ M.trailing

/-- The bytes that `adapt` makes of any binary. -/
def inserted (M : CompiledUnit LIBRA_ADDR_LEN) (addrLen : ℕ) (hs : List (Placed LIBRA_ADDR_LEN)) :
    List UInt8 :=
  M.binary (recordedHeaders addrLen 0 hs) (M.tables.map (insertedTable addrLen))

theorem pieces_source (M : CompiledUnit LIBRA_ADDR_LEN) (addrLen : ℕ)
    (hs : List (Placed LIBRA_ADDR_LEN)) :
    sourceText (M.pieces addrLen hs) = M.serializeWith hs := by
  have hc : contents (M.tables.map Table.raw) = M.tables.flatMap fun t => t.raw.2 := by
    simp [contents, List.flatMap_map]
  simp only [pieces, serializeWith, binary, sourceText_cons, sourceText_append,
    sourceText_flatMap, tablePieces_source, headersPieces_source, hc]
  simp

theorem pieces_target (M : CompiledUnit LIBRA_ADDR_LEN) (addrLen : ℕ)
    (hs : List (Placed LIBRA_ADDR_LEN)) : targetText (M.pieces addrLen hs) = M.inserted addrLen hs := by
  have hc : contents (M.tables.map (insertedTable addrLen)) =
      M.tables.flatMap fun t => targetText (tablePieces addrLen t) := by
    simp [contents, List.flatMap_map, insertedTable]
  simp only [pieces, inserted, binary, targetText_cons, targetText_append,
    targetText_flatMap, headersPieces_target, hc]
  simp

theorem pieces_separated (M : CompiledUnit LIBRA_ADDR_LEN) (addrLen : ℕ)
    (hs : List (Placed LIBRA_ADDR_LEN)) : Separated (M.pieces addrLen hs) :=
  (Separated.keep M.headerStart).append ((headersPieces_separated addrLen 0 hs).append
    ((Separated.flatMap fun t _ => tablePieces_separated addrLen t).append (Separated.keep _)))

theorem adapted_eq_binary (M : CompiledUnit LIBRA_ADDR_LEN) :
    M.adapted = M.binary (layout 0 (M.tables.map adaptedTable)) (M.tables.map adaptedTable) := by
  simp [adapted, binary, tablesCodec, headerStart, layout_length]

/-- As long as the binary stays addressable, nothing wraps around. -/
theorem inserted_place {M : CompiledUnit LIBRA_ADDR_LEN} (h : M.adapted.length < 2 ^ 32) :
    M.inserted DFIN_ADDR_LEN (place 0 M.tables) = M.adapted := by
  have htables : M.tables.map (insertedTable DFIN_ADDR_LEN) = M.tables.map adaptedTable :=
    List.map_congr_left fun t _ => insertedTable_eq t
  rw [adapted_eq_binary] at h ⊢
  simp only [binary, List.length_append] at h
  rw [inserted, htables, recordedHeaders_place 0 0 M.tables (by omega)]

end CompiledUnit
end MoveTools.Compat
