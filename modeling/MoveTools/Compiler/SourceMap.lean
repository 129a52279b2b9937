import Mathlib.Data.Int.ModEq
import MoveTools.Library.Text
import MoveTools.Library.Splice

namespace MoveTools.Compiler
open Splice

/-- `z as usize` for an `isize` value, in two's complement. -/
def asUsize (z : ℤ) : ℕ := if 0 ≤ z then z.toNat else (z % 2 ^ 64).toNat

theorem asUsize_of_eq {z : ℤ} {n : ℕ} (h : z = n) : asUsize z = n := by
  simp [asUsize, h]

def lenDifference (orig replacement : Text) : ℤ := (Text.len orig : ℤ) - Text.len replacement

structure Layer where
  pos : ℕ
  offset : ℤ
  deriving DecidableEq, Repr

def Layer.translate (l : Layer) (pos : ℕ) : ℕ :=
  if pos < l.pos then pos else asUsize (pos + l.offset)

theorem Layer.translate_of_lt {l : Layer} {p : ℕ} (h : p < l.pos) : l.translate p = p :=
  if_pos h

theorem Layer.translate_of_le {l : Layer} {p r : ℕ} (h : l.pos ≤ p) (hr : (p : ℤ) + l.offset = r) :
    l.translate p = r := by
  rw [Layer.translate, if_neg (by omega), asUsize_of_eq hr]

structure FileOffsetMap where
  layers : List Layer := []
  addressReplacements : List (Text × Text) := []
  deriving DecidableEq, Repr

namespace FileOffsetMap

def insertLayer (m : FileOffsetMap) (pos : ℕ) (offset : ℤ) : FileOffsetMap :=
  { m with layers := m.layers ++ [⟨pos, offset⟩] }

def insertAddressReplacement (m : FileOffsetMap) (original replacement : Text) : FileOffsetMap :=
  { m with addressReplacements := m.addressReplacements ++ [(original, replacement)] }

def insertAddressLayer (m : FileOffsetMap) (originalEndPos : ℕ) (original replacement : Text) :
    FileOffsetMap :=
  (m.insertLayer originalEndPos (lenDifference original replacement)).insertAddressReplacement
    original replacement

/-- `for layer in self.layers.iter().rev()`: the last layer is applied first. -/
def translatePos (m : FileOffsetMap) (pos : ℕ) : ℕ := m.layers.foldr Layer.translate pos

def translateMessage (m : FileOffsetMap) (msg : Text) : Text :=
  m.addressReplacements.foldr (fun x msg => msg.replace x.2 x.1) msg

@[simp] theorem layers_insertLayer (m : FileOffsetMap) (pos : ℕ) (offset : ℤ) :
    (m.insertLayer pos offset).layers = m.layers ++ [⟨pos, offset⟩] := rfl

@[simp] theorem addressReplacements_insertLayer (m : FileOffsetMap) (pos : ℕ) (offset : ℤ) :
    (m.insertLayer pos offset).addressReplacements = m.addressReplacements := rfl

@[simp] theorem layers_insertAddressLayer (m : FileOffsetMap) (pos : ℕ) (o r : Text) :
    (m.insertAddressLayer pos o r).layers = m.layers ++ [⟨pos, lenDifference o r⟩] := rfl

@[simp] theorem translatePos_insertLayer (m : FileOffsetMap) (pos : ℕ) (offset : ℤ) (p : ℕ) :
    (m.insertLayer pos offset).translatePos p =
      m.translatePos (Layer.translate ⟨pos, offset⟩ p) := by
  simp [translatePos]

@[simp] theorem translatePos_insertAddressLayer (m : FileOffsetMap) (pos : ℕ) (o r : Text) (p : ℕ) :
    (m.insertAddressLayer pos o r).translatePos p =
      m.translatePos (Layer.translate ⟨pos, lenDifference o r⟩ p) := by
  simp [translatePos]

end FileOffsetMap

def shiftOf (l : Layer) : ℕ × ℤ := (l.pos, l.offset)

def layerOf (x : ℕ × ℤ) : Layer := ⟨x.1, x.2⟩

theorem layer_shiftRule : ShiftRule fun x p => (layerOf x).translate p where
  before h := Layer.translate_of_lt h
  after h hr := Layer.translate_of_le h hr

theorem translatePos_eq_unwind (m : FileOffsetMap) (p : ℕ) :
    m.translatePos p = unwind (fun x p => (layerOf x).translate p) (m.layers.map shiftOf) p := by
  simp only [FileOffsetMap.translatePos, unwind, List.foldr_map]
  rfl

theorem sourceLen_map_len (ps : List (Piece Text)) :
    sourceLen (ps.map (.map Text.len)) = Text.len (sourceText ps) := by
  induction ps with
  | nil => rfl
  | cons x ps ih =>
    rw [sourceText, List.flatMap_cons, Text.len_append, ← sourceText, ← ih]
    simp [sourceLen]

theorem targetLen_map_len (ps : List (Piece Text)) :
    targetLen (ps.map (.map Text.len)) = Text.len (targetText ps) := by
  induction ps with
  | nil => rfl
  | cons x ps ih =>
    rw [targetText, List.flatMap_cons, Text.len_append, ← targetText, ← ih]
    simp [targetLen]

theorem asUsize_modEq (z : ℤ) : (asUsize z : ℤ) ≡ z [ZMOD 2 ^ 64] := by
  unfold asUsize
  split
  · rw [Int.toNat_of_nonneg (by assumption)]
  · rw [Int.toNat_of_nonneg (Int.emod_nonneg z (by decide))]
    exact Int.mod_modEq z _

def drift : List Layer → ℕ → ℤ
  | [], _ => 0
  | l :: ls, p => (if l.pos ≤ ls.foldr Layer.translate p then l.offset else 0) + drift ls p

theorem translatePos_modEq (m : FileOffsetMap) (p : ℕ) :
    (m.translatePos p : ℤ) ≡ p + drift m.layers p [ZMOD 2 ^ 64] := by
  unfold FileOffsetMap.translatePos
  induction m.layers with
  | nil => simp [drift]
  | cons l ls ih =>
    simp only [List.foldr_cons, drift]
    by_cases hl : l.pos ≤ ls.foldr Layer.translate p
    · rw [if_pos hl, Layer.translate, if_neg (by omega)]
      refine (asUsize_modEq _).trans ?_
      rw [← add_assoc, add_comm (p : ℤ), add_assoc, add_comm l.offset]
      exact ih.add_right _
    · rw [if_neg hl, Layer.translate_of_lt (by omega), zero_add]
      exact ih

/-- A `codespan` span. Its byte indices are `u32`s. -/
structure Span where
  start : ℕ
  stop : ℕ
  deriving DecidableEq, Repr

/-- `Span::new` asserts that the end is not before the start. -/
def Span.new (start stop : ℕ) : Option Span := if start ≤ stop then some ⟨start, stop⟩ else none

structure Loc where
  file : Text
  span : Span
  deriving DecidableEq, Repr

abbrev Error := List (Loc × Text)
abbrev Errors := List Error

def asU32 (n : ℕ) : ℕ := n % 2 ^ 32

namespace FileOffsetMap

def translateSpan (m : FileOffsetMap) (span : Span) : Option Span :=
  Span.new (asU32 (m.translatePos span.start)) (asU32 (m.translatePos span.stop))

def translateError (m : FileOffsetMap) (x : Loc × Text) : Option (Loc × Text) := do
  let span ← m.translateSpan x.1.span
  pure (⟨x.1.file, span⟩, m.translateMessage x.2)

end FileOffsetMap

abbrev FileMap (α : Type) := Text → Option α

def FileMap.insert {α : Type} (m : FileMap α) (name : Text) (a : α) : FileMap α :=
  Function.update m name (some a)

abbrev ProjectOffsetMap := FileMap FileOffsetMap

/-- `none` stands for a panic: a file without an offset map, or a span that is turned round. -/
def ProjectOffsetMap.transform (m : ProjectOffsetMap) (errors : Errors) : Option Errors :=
  errors.mapM fun error => error.mapM fun x => do
    let map ← m x.1.file
    map.translateError x

/-- A byte index comes back unchanged if and only if the layers it crosses cancel out. -/
theorem asU32_translatePos_eq_iff (m : FileOffsetMap) {p : ℕ} (hp : p < 2 ^ 32) :
    asU32 (m.translatePos p) = p ↔ (2 ^ 32 : ℤ) ∣ drift m.layers p := by
  have hmod : (m.translatePos p : ℤ) ≡ p + drift m.layers p [ZMOD 2 ^ 32] :=
    (translatePos_modEq m p).of_dvd (by decide)
  have hu32 : asU32 (m.translatePos p) = p ↔ (m.translatePos p : ℤ) ≡ p [ZMOD 2 ^ 32] := by
    simp only [asU32, Int.ModEq]
    omega
  rw [hu32]
  constructor
  · intro h
    have := (hmod.symm.trans h).symm.dvd
    simpa using this
  · intro h
    refine hmod.trans (Int.ModEq.symm ?_)
    exact (Int.modEq_iff_dvd.mpr (by simpa using h))

theorem mapM_forall₂_iff {α β : Type*} {f : α → Option β} {R : α → β → Prop} {xs : List α} :
    (∃ ys, xs.mapM f = some ys ∧ List.Forall₂ R xs ys) ↔ ∀ x ∈ xs, ∃ y, f x = some y ∧ R x y := by
  induction xs with
  | nil => simp
  | cons x xs ih =>
    rw [List.forall_mem_cons, ← ih, List.mapM_cons]
    constructor
    · rintro ⟨ys, hys, hR⟩
      obtain ⟨y, hy, hys⟩ := Option.bind_eq_some_iff.mp hys
      obtain ⟨zs, hzs, heq⟩ := Option.bind_eq_some_iff.mp hys
      cases heq
      cases hR with
      | cons h1 h2 => exact ⟨⟨y, hy, h1⟩, zs, hzs, h2⟩
    · rintro ⟨⟨y, hy, h1⟩, zs, hzs, h2⟩
      exact ⟨y :: zs, by simp [hy, hzs], .cons h1 h2⟩

end MoveTools.Compiler
