import MoveTools.Library.Uleb
import Mathlib.Data.List.Forall2
import Mathlib.Tactic.Ring

namespace MoveTools.Compat

/-! The binary format of compiled modules and scripts, for addresses of `w` bytes. -/

abbrev Address (w : ℕ) := {bytes : List UInt8 // bytes.length = w}

inductive ConstantType where
  | Bool | U8 | U64 | U128 | Address
  | Vector (element : ConstantType)
  deriving DecidableEq, Repr

namespace ConstantType

def depth : ConstantType → ℕ
  | Vector element => element.depth + 1
  | _ => 1

def write : ConstantType → List UInt8
  | Bool => [1]
  | U8 => [2]
  | U64 => [3]
  | U128 => [4]
  | Address => [5]
  | Vector element => 10 :: element.write

def read : List UInt8 → Option (ConstantType × List UInt8)
  | [] => none
  | b :: bytes =>
    if b = 1 then some (Bool, bytes)
    else if b = 2 then some (U8, bytes)
    else if b = 3 then some (U64, bytes)
    else if b = 4 then some (U128, bytes)
    else if b = 5 then some (Address, bytes)
    else if b = 10 then (read bytes).map fun x => (Vector x.1, x.2)
    else none

theorem read_write (t : ConstantType) (rest : List UInt8) :
    read (t.write ++ rest) = some (t, rest) := by
  induction t with
  | Vector element ih => simp [write, read, ih]
  | _ => rfl

theorem write_of_read {bytes rest : List UInt8} {t : ConstantType}
    (h : read bytes = some (t, rest)) : bytes = t.write ++ rest := by
  induction bytes generalizing t rest with
  | nil => cases h
  | cons b bytes ih =>
    simp only [read] at h
    split_ifs at h with h1 h2 h3 h4 h5 h10
    iterate 5
      cases h
      simp [write, *]
    obtain ⟨⟨element, r⟩, hr, h⟩ := Option.map_eq_some_iff.mp h
    cases h
    simp [write, h10, ih hr]

def codec : Codec ConstantType where
  write := write
  read := read
  read_iff := by
    intro bytes t rest
    constructor
    · exact write_of_read
    · rintro rfl
      exact read_write t rest

theorem write_ne_nil (t : ConstantType) : t.write ≠ [] := by
  cases t <;> simp [write]

end ConstantType

def boolCodec : Codec Bool where
  write b := [if b then 1 else 0]
  read
    | [] => none
    | b :: rest => if b = 0 then some (false, rest) else if b = 1 then some (true, rest) else none
  read_iff := by
    intro bytes a rest
    cases bytes with
    | nil => simp
    | cons b bytes =>
      constructor
      · intro h
        simp only at h
        split_ifs at h with h0 h1
        all_goals
          cases h
          simp [*]
      · intro h
        cases a
        all_goals
          obtain ⟨rfl, rfl⟩ : _ ∧ _ := by simpa using h
          rfl

/-- The numbers stand for the little-endian bytes that write them. -/
def Value (w : ℕ) : ConstantType → Type
  | .Bool => Bool
  | .U8 => UInt8
  | .U64 => {bytes : List UInt8 // bytes.length = 8}
  | .U128 => {bytes : List UInt8 // bytes.length = 16}
  | .Address => Address w
  | .Vector element => List (Value w element)

def valueCodec (w : ℕ) : (t : ConstantType) → Codec (Value w t)
  | .Bool => boolCodec
  | .U8 => Codec.byte
  | .U64 => Codec.chunk 8
  | .U128 => Codec.chunk 16
  | .Address => Codec.chunk w
  | .Vector element => Uleb.row (valueCodec w element)

/-- The addresses that occur in a value, in the order they are written. -/
def Value.addresses {w : ℕ} : (t : ConstantType) → Value w t → List (Address w)
  | .Address, a => [a]
  | .Vector element, vs => List.flatMap (Value.addresses element) vs
  | .Bool, _ => []
  | .U8, _ => []
  | .U64, _ => []
  | .U128, _ => []

def Value.map {w w' : ℕ} (f : Address w → Address w') : (t : ConstantType) → Value w t → Value w' t
  | .Address, a => f a
  | .Vector element, vs => List.map (Value.map f element) vs
  | .Bool, v => v
  | .U8, v => v
  | .U64, v => v
  | .U128, v => v

abbrev RawConstant := ConstantType × List UInt8

def rawConstantCodec : Codec RawConstant := ConstantType.codec.pair Uleb.blob

theorem rawConstant_ne_nil (c : RawConstant) : rawConstantCodec.write c ≠ [] := by
  simp [rawConstantCodec, Codec.pair_write, ConstantType.codec, ConstantType.write_ne_nil]

abbrev Constant (w : ℕ) := Σ t : ConstantType, Value w t

namespace Constant
variable {w w' : ℕ}

def raw (c : Constant w) : RawConstant := (c.1, (valueCodec w c.1).write c.2)

/-- The bytes of the value must be used up. -/
def ofRaw (w : ℕ) (c : RawConstant) : Option (Constant w) :=
  match (valueCodec w c.1).read c.2 with
  | some (v, []) => some ⟨c.1, v⟩
  | _ => none

theorem ofRaw_iff {c : RawConstant} {d : Constant w} : ofRaw w c = some d ↔ c = d.raw := by
  obtain ⟨t, bytes⟩ := c
  constructor
  · intro h
    simp only [ofRaw] at h
    split at h
    · rename_i v hv
      cases h
      have := (valueCodec w t).read_iff.mp hv
      simpa [raw] using this
    · cases h
  · intro h
    obtain ⟨t', v⟩ := d
    obtain ⟨rfl, rfl⟩ : t = t' ∧ bytes = _ := by simpa [raw] using h
    have := (valueCodec w t).read_write v []
    simp only [List.append_nil] at this
    simp [ofRaw, this]

def addresses (c : Constant w) : List (Address w) := Value.addresses c.1 c.2

def map (f : Address w → Address w') (c : Constant w) : Constant w' := ⟨c.1, Value.map f c.1 c.2⟩

end Constant

namespace TableType
def CONSTANT_POOL : UInt8 := 6
def ADDRESS_IDENTIFIERS : UInt8 := 8

theorem pool_ne_addresses : CONSTANT_POOL ≠ ADDRESS_IDENTIFIERS := by decide

end TableType

abbrev RawTable := UInt8 × List UInt8

/-- The two tables whose contents depend on the length of an address, and any other table. -/
inductive Table (w : ℕ) where
  | addressIdentifiers (addresses : List (Address w))
  | constantPool (constants : List (Constant w))
  | other (kind : UInt8) (contents : List UInt8)
      (hpool : kind ≠ TableType.CONSTANT_POOL) (haddress : kind ≠ TableType.ADDRESS_IDENTIFIERS)

namespace Table
variable {w w' : ℕ}

def raw : Table w → RawTable
  | addressIdentifiers as =>
    (TableType.ADDRESS_IDENTIFIERS, Codec.writeAll (Codec.chunk w) as)
  | constantPool cs => (TableType.CONSTANT_POOL, rawConstantCodec.writeAll (cs.map Constant.raw))
  | other kind contents _ _ => (kind, contents)

def ofRaw (w : ℕ) (t : RawTable) : Option (Table w) :=
  if hp : t.1 = TableType.CONSTANT_POOL then
    ((rawConstantCodec.readAll t.2.length t.2).bind (List.mapM (Constant.ofRaw w))).map constantPool
  else if ha : t.1 = TableType.ADDRESS_IDENTIFIERS then
    ((Codec.chunk w).readAll t.2.length t.2).map addressIdentifiers
  else some (other t.1 t.2 hp ha)

theorem ofRaw_iff (hw : 0 < w) {t : RawTable} {u : Table w} : ofRaw w t = some u ↔ t = u.raw := by
  have hne : ∀ a : Address w, (Codec.chunk w).write a ≠ [] := fun a ha => by
    have := a.2
    rw [show a.1 = [] from ha] at this
    exact absurd this (Nat.ne_of_lt hw)
  obtain ⟨kind, contents⟩ := t
  simp only [ofRaw]
  -- the two tables that are read, and any other one
  split_ifs with hp ha
  · subst hp
    rw [Option.map_eq_some_iff]
    constructor
    · rintro ⟨cs, h, rfl⟩
      obtain ⟨rs, hr, h⟩ := Option.bind_eq_some_iff.mp h
      rw [rawConstantCodec.readAll_iff rawConstant_ne_nil (Nat.le_refl _)] at hr
      rw [raw, hr, (Codec.mapM_inverse Constant.ofRaw_iff).mp h]
    · intro h
      cases u with
      | constantPool cs =>
        obtain rfl : contents = rawConstantCodec.writeAll (cs.map Constant.raw) := congrArg Prod.snd h
        refine ⟨cs, ?_, rfl⟩
        rw [(rawConstantCodec.readAll_iff rawConstant_ne_nil (Nat.le_refl _)).mpr rfl,
          Option.bind_some, Codec.mapM_inverse Constant.ofRaw_iff]
      | addressIdentifiers as => exact absurd (congrArg Prod.fst h) TableType.pool_ne_addresses
      | other kind' _ hp' => exact absurd (congrArg Prod.fst h).symm hp'
  · subst ha
    rw [Option.map_eq_some_iff]
    constructor
    · rintro ⟨as, h, rfl⟩
      rw [raw, (Codec.readAll_iff _ hne (Nat.le_refl _)).mp h]
    · intro h
      cases u with
      | addressIdentifiers as =>
        obtain rfl : contents = _ := congrArg Prod.snd h
        exact ⟨as, (Codec.readAll_iff _ hne (Nat.le_refl _)).mpr rfl, rfl⟩
      | constantPool cs => exact absurd (congrArg Prod.fst h).symm TableType.pool_ne_addresses
      | other kind' _ _ ha' => exact absurd (congrArg Prod.fst h).symm ha'
  · constructor
    · intro h
      cases h
      rfl
    · intro h
      cases u with
      | addressIdentifiers as => exact absurd (congrArg Prod.fst h) ha
      | constantPool cs => exact absurd (congrArg Prod.fst h) hp
      | other kind' contents' _ _ =>
        obtain ⟨rfl, rfl⟩ : kind = kind' ∧ contents = contents' := by simpa [raw] using h
        rfl

def constants : Table w → List (Constant w)
  | constantPool cs => cs
  | _ => []

def map (f : Address w → Address w') : Table w → Table w'
  | addressIdentifiers as => addressIdentifiers (as.map f)
  | constantPool cs => constantPool (cs.map (Constant.map f))
  | other kind contents hp ha => other kind contents hp ha

end Table

/-- Kind, offset and length of a table. The offset counts from the end of the headers. -/
abbrev TableHeader := UInt8 × ℕ × ℕ

def headerCodec : Codec TableHeader := Codec.byte.pair (Uleb.codec.pair Uleb.codec)

/-- The headers of tables that lie one behind the other, in this order. -/
def layout : ℕ → List RawTable → List TableHeader
  | _, [] => []
  | offset, t :: ts => (t.1, offset, t.2.length) :: layout (offset + t.2.length) ts

theorem layout_length (offset : ℕ) (ts : List RawTable) : (layout offset ts).length = ts.length := by
  induction ts generalizing offset with
  | nil => rfl
  | cons t ts ih => simp [layout, ih]

def contents (ts : List RawTable) : List UInt8 := ts.flatMap Prod.snd

/-- The magic bytes and the version. -/
def preamble : List UInt8 := [0xa1, 0x1c, 0xeb, 0x0b, 1, 0, 0, 0]

def takeContents : List TableHeader → List UInt8 → Option (List RawTable × List UInt8)
  | [], bytes => some ([], bytes)
  | h :: hs, bytes =>
    ((Codec.chunk h.2.2).read bytes).bind fun x =>
      (takeContents hs x.2).map fun y => ((h.1, x.1.1) :: y.1, y.2)

theorem contents_of_takeContents {hs : List TableHeader} {bytes rest : List UInt8}
    {ts : List RawTable} (h : takeContents hs bytes = some (ts, rest)) :
    bytes = contents ts ++ rest := by
  induction hs generalizing bytes ts with
  | nil =>
    cases h
    rfl
  | cons header hs ih =>
    obtain ⟨⟨w, r⟩, hc, h⟩ := Option.bind_eq_some_iff.mp h
    obtain ⟨⟨us, r'⟩, ht, h⟩ := Option.map_eq_some_iff.mp h
    cases h
    have hr : r = contents us ++ r' := ih ht
    rw [(Codec.chunk _).read_iff.mp hc, hr]
    simp [contents, Codec.chunk]

theorem takeContents_layout (ts : List RawTable) (offset : ℕ) (rest : List UInt8) :
    takeContents (layout offset ts) (contents ts ++ rest) = some (ts, rest) := by
  induction ts generalizing offset with
  | nil => rfl
  | cons t ts ih =>
    have hc := (Codec.chunk t.2.length).read_write ⟨t.2, rfl⟩ (contents ts ++ rest)
    have hs : contents (t :: ts) ++ rest =
        (Codec.chunk t.2.length).write ⟨t.2, rfl⟩ ++ (contents ts ++ rest) := by
      simp [contents, Codec.chunk]
    rw [hs, layout, takeContents, hc, Option.bind_some, ih, Option.map_some]

def tablesCodec : Codec (List RawTable) where
  write ts := preamble ++ (Uleb.row headerCodec).write (layout 0 ts) ++ contents ts
  read bytes :=
    ((Codec.fixed preamble).read bytes).bind fun x =>
      ((Uleb.row headerCodec).read x.2).bind fun hs =>
        (takeContents hs.1 hs.2).bind fun ts =>
          if layout 0 ts.1 = hs.1 then some ts else none
  read_iff := by
    intro bytes ts rest
    constructor
    · intro h
      obtain ⟨⟨_, r⟩, hp, h⟩ := Option.bind_eq_some_iff.mp h
      obtain ⟨⟨hs, r'⟩, hh, h⟩ := Option.bind_eq_some_iff.mp h
      obtain ⟨⟨us, r''⟩, ht, h⟩ := Option.bind_eq_some_iff.mp h
      split_ifs at h with hl
      cases h
      have hr : r = (Uleb.row headerCodec).write hs ++ r' := (Codec.read_iff _).mp hh
      have hr' : r' = contents ts ++ rest := contents_of_takeContents ht
      have hhs : layout 0 ts = hs := hl
      rw [(Codec.fixed _).read_iff.mp hp, hr, hr', ← hhs]
      simp [Codec.fixed]
    · rintro rfl
      have hp := (Codec.fixed preamble).read_write ()
        ((Uleb.row headerCodec).write (layout 0 ts) ++ (contents ts ++ rest))
      have hs : preamble ++ (Uleb.row headerCodec).write (layout 0 ts) ++ contents ts ++ rest =
          (Codec.fixed preamble).write () ++
            ((Uleb.row headerCodec).write (layout 0 ts) ++ (contents ts ++ rest)) := by
        simp [Codec.fixed]
      rw [hs, hp, Option.bind_some, Codec.read_write, Option.bind_some,
        takeContents_layout, Option.bind_some, if_pos rfl]

/-- What the loader bounds: the nesting of a type, and the bytes of a constant's value. -/
structure Limits where
  signatureTokenDepthMax : ℕ
  constantSizeMax : ℕ

/-- A module or script: its tables, and what stands behind them (the handle of the module, or the
body of the script). Only addresses and constants are taken apart; nothing else in a binary
depends on the length of an address. -/
structure CompiledUnit (w : ℕ) where
  tables : List (Table w)
  trailing : List UInt8

namespace CompiledUnit
variable {w w' : ℕ}

def serialize (M : CompiledUnit w) : List UInt8 :=
  tablesCodec.write (M.tables.map Table.raw) ++ M.trailing

def constants (M : CompiledUnit w) : List (Constant w) := M.tables.flatMap Table.constants

def withinLimits (limits : Limits) (M : CompiledUnit w) : Bool :=
  M.constants.all fun c =>
    c.1.depth ≤ limits.signatureTokenDepthMax && c.raw.2.length ≤ limits.constantSizeMax

/-- Offsets and lengths are 32-bit numbers. -/
def deserialize (limits : Limits) (w : ℕ) (bytes : List UInt8) : Option (CompiledUnit w) :=
  ((tablesCodec.read bytes).bind fun x =>
      (x.1.mapM (Table.ofRaw w)).map fun ts => CompiledUnit.mk ts x.2).filter fun M =>
    M.withinLimits limits && bytes.length < 2 ^ 32

def map (f : Address w → Address w') (M : CompiledUnit w) : CompiledUnit w' :=
  { tables := M.tables.map (Table.map f), trailing := M.trailing }

theorem deserialize_iff (hw : 0 < w) {limits : Limits} {bytes : List UInt8} {M : CompiledUnit w} :
    deserialize limits w bytes = some M ↔
      bytes = M.serialize ∧ M.withinLimits limits = true ∧ bytes.length < 2 ^ 32 := by
  simp only [deserialize, Option.filter_eq_some_iff, Bool.and_eq_true, decide_eq_true_eq]
  refine and_congr_left fun _ => ?_
  constructor
  · intro h
    obtain ⟨⟨rs, rest⟩, hr, h⟩ := Option.bind_eq_some_iff.mp h
    obtain ⟨ts, ht, rfl⟩ := Option.map_eq_some_iff.mp h
    have hrs : rs = ts.map Table.raw := (Codec.mapM_inverse (Table.ofRaw_iff hw)).mp ht
    rw [tablesCodec.read_iff.mp hr, hrs]
    rfl
  · rintro rfl
    rw [serialize, Codec.read_write, Option.bind_some, (Codec.mapM_inverse (Table.ofRaw_iff hw)).mpr rfl]
    rfl

end CompiledUnit
end MoveTools.Compat
