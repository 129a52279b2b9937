import Mathlib.Data.List.Basic
import Mathlib.Logic.Equiv.Basic

namespace MoveTools

/-- A binary format for the values of `α`: every value is written in one way, and what was written
can be read back in front of anything. Nothing else is read. -/
structure Codec (α : Type) where
  write : α → List UInt8
  read : List UInt8 → Option (α × List UInt8)
  read_iff : ∀ {bytes a rest}, read bytes = some (a, rest) ↔ bytes = write a ++ rest

namespace Codec

variable {α β : Type}

@[simp] theorem read_write (c : Codec α) (a : α) (rest : List UInt8) :
    c.read (c.write a ++ rest) = some (a, rest) :=
  c.read_iff.mpr rfl

theorem write_append_inj (c : Codec α) {a b : α} {xs ys : List UInt8}
    (h : c.write a ++ xs = c.write b ++ ys) : a = b ∧ xs = ys := by
  have hr := c.read_write b ys
  rw [← h, read_write] at hr
  simpa using hr

def byte : Codec UInt8 where
  write b := [b]
  read
    | [] => none
    | b :: rest => some (b, rest)
  read_iff := by
    intro bytes a rest
    cases bytes <;> simp

def fixed (w : List UInt8) : Codec Unit where
  write _ := w
  read bytes := if bytes.take w.length = w then some ((), bytes.drop w.length) else none
  read_iff := by
    intro bytes a rest
    constructor
    · intro h
      split at h
      · rename_i hw
        obtain ⟨-, rfl⟩ : () = a ∧ bytes.drop w.length = rest := by simpa using h
        conv_lhs => rw [← List.take_append_drop w.length bytes, hw]
      · simp at h
    · rintro rfl
      simp

def chunk (n : ℕ) : Codec {w : List UInt8 // w.length = n} where
  write w := w.1
  read bytes :=
    if h : (bytes.take n).length = n then some (⟨bytes.take n, h⟩, bytes.drop n) else none
  read_iff := by
    intro bytes a rest
    constructor
    · intro h
      split at h
      · obtain ⟨rfl, rfl⟩ : _ = a ∧ bytes.drop n = rest := by simpa using h
        exact (List.take_append_drop n bytes).symm
      · simp at h
    · rintro rfl
      obtain ⟨w, rfl⟩ := a
      simp

/-- One format after the other, where the second may depend on what the first one wrote. -/
def andThen {γ : α → Type} (c : Codec α) (d : (a : α) → Codec (γ a)) : Codec (Σ a, γ a) where
  write x := c.write x.1 ++ (d x.1).write x.2
  read bytes :=
    (c.read bytes).bind fun x => ((d x.1).read x.2).map fun y => (⟨x.1, y.1⟩, y.2)
  read_iff := by
    rintro bytes ⟨a, b⟩ rest
    constructor
    · intro h
      obtain ⟨⟨a', rest'⟩, hc, h⟩ := Option.bind_eq_some_iff.mp h
      obtain ⟨⟨b', rest''⟩, hd, h⟩ := Option.map_eq_some_iff.mp h
      cases h
      rw [c.read_iff.mp hc, List.append_assoc]
      exact congrArg _ ((d _).read_iff.mp hd)
    · rintro rfl
      simp

/-- The same format for values that correspond to each other. -/
def along (c : Codec α) (e : α ≃ β) : Codec β where
  write b := c.write (e.symm b)
  read bytes := (c.read bytes).map fun x => (e x.1, x.2)
  read_iff := by
    intro bytes b rest
    rw [← c.read_iff, Option.map_eq_some_iff]
    constructor
    · rintro ⟨⟨a, r⟩, h, he⟩
      cases he
      simpa using h
    · intro h
      exact ⟨_, h, by simp⟩

def pair (c : Codec α) (d : Codec β) : Codec (α × β) :=
  (c.andThen fun _ => d).along (Equiv.sigmaEquivProd α β)

theorem pair_write (c : Codec α) (d : Codec β) (x : α × β) :
    (c.pair d).write x = c.write x.1 ++ d.write x.2 := rfl

def readTimes (c : Codec α) : ℕ → List UInt8 → Option (List α × List UInt8)
  | 0, bytes => some ([], bytes)
  | n + 1, bytes =>
    (c.read bytes).bind fun x => (c.readTimes n x.2).map fun y => (x.1 :: y.1, y.2)

def writeAll (c : Codec α) (xs : List α) : List UInt8 := xs.flatMap c.write

@[simp] theorem writeAll_nil (c : Codec α) : c.writeAll [] = [] := rfl

@[simp] theorem writeAll_cons (c : Codec α) (x : α) (xs : List α) :
    c.writeAll (x :: xs) = c.write x ++ c.writeAll xs := rfl

theorem readTimes_iff (c : Codec α) {n : ℕ} {bytes rest : List UInt8} {xs : List α} :
    c.readTimes n bytes = some (xs, rest) ↔ xs.length = n ∧ bytes = c.writeAll xs ++ rest := by
  induction n generalizing bytes xs with
  | zero =>
    rw [List.length_eq_zero_iff]
    constructor
    · intro h
      cases h
      exact ⟨rfl, rfl⟩
    · rintro ⟨rfl, rfl⟩
      rfl
  | succ n ih =>
    constructor
    · intro h
      obtain ⟨⟨x, r⟩, hc, h⟩ := Option.bind_eq_some_iff.mp h
      obtain ⟨⟨ys, r'⟩, hn, h⟩ := Option.map_eq_some_iff.mp h
      cases h
      obtain ⟨hl, hr⟩ := ih.mp hn
      refine ⟨congrArg Nat.succ hl, ?_⟩
      rw [c.read_iff.mp hc, writeAll_cons, List.append_assoc]
      exact congrArg _ hr
    · rintro ⟨hl, rfl⟩
      cases xs with
      | nil => simp at hl
      | cons x xs =>
        have htail : c.readTimes n (c.writeAll xs ++ rest) = some (xs, rest) :=
          ih.mpr ⟨Nat.succ.inj hl, rfl⟩
        simp [readTimes, htail]

/-- A row that fills all the bytes: it is read until nothing is left. -/
def readAll (c : Codec α) : ℕ → List UInt8 → Option (List α)
  | _, [] => some []
  | 0, _ :: _ => none
  | fuel + 1, b :: bytes =>
    (c.read (b :: bytes)).bind fun x => (c.readAll fuel x.2).map (x.1 :: ·)

theorem readAll_iff (c : Codec α) (hne : ∀ a, c.write a ≠ []) {fuel : ℕ} {bytes : List UInt8}
    {xs : List α} (hf : bytes.length ≤ fuel) :
    c.readAll fuel bytes = some xs ↔ bytes = c.writeAll xs := by
  induction fuel generalizing bytes xs with
  | zero =>
    obtain rfl : bytes = [] := List.length_eq_zero_iff.mp (by omega)
    cases xs with
    | nil => simp [readAll]
    | cons x xs => simp [readAll, hne x]
  | succ fuel ih =>
    cases bytes with
    | nil =>
      cases xs with
      | nil => simp [readAll]
      | cons x xs => simp [readAll, hne x]
    | cons b bytes =>
      simp only [readAll]
      constructor
      · intro h
        obtain ⟨⟨x, r⟩, hc, h⟩ := Option.bind_eq_some_iff.mp h
        obtain ⟨ys, hys, rfl⟩ := Option.map_eq_some_iff.mp h
        have hw := c.read_iff.mp hc
        have hl := congrArg List.length hw
        have hx := List.length_pos_of_ne_nil (hne x)
        simp only [List.length_cons, List.length_append] at hl hf
        have hr : r = c.writeAll ys := (ih (by omega)).mp hys
        rw [hw, hr, writeAll_cons]
      · intro h
        cases xs with
        | nil => simp at h
        | cons x xs =>
          rw [writeAll_cons] at h
          have hl := congrArg List.length h
          have hx := List.length_pos_of_ne_nil (hne x)
          simp only [List.length_cons, List.length_append] at hl hf
          have htail : c.readAll fuel (c.writeAll xs) = some xs := (ih (by omega)).mpr rfl
          rw [h, read_write, Option.bind_some, htail, Option.map_some]

theorem writeAll_inj (c : Codec α) (hne : ∀ a, c.write a ≠ []) {xs ys : List α}
    (h : c.writeAll xs = c.writeAll ys) : xs = ys := by
  have hx := (c.readAll_iff hne (Nat.le_refl _)).mpr h
  rw [(c.readAll_iff hne (Nat.le_refl _)).mpr rfl] at hx
  simpa using hx

theorem mapM_inverse {f : α → Option β} {g : β → α} (h : ∀ {a b}, f a = some b ↔ a = g b)
    {xs : List α} {ys : List β} : xs.mapM f = some ys ↔ xs = ys.map g := by
  induction xs generalizing ys with
  | nil => cases ys <;> simp
  | cons x xs ih =>
    rw [List.mapM_cons]
    constructor
    · intro hm
      obtain ⟨y, hy, hm⟩ := Option.bind_eq_some_iff.mp hm
      obtain ⟨zs, hz, hm⟩ := Option.bind_eq_some_iff.mp hm
      cases hm
      rw [h.mp hy, ih.mp hz, List.map_cons]
    · intro hm
      cases ys with
      | nil => cases hm
      | cons y ys =>
        obtain ⟨hx, hxs⟩ : x = g y ∧ xs = ys.map g := by simpa using hm
        simp [h.mpr hx, ih.mpr hxs]

end Codec
end MoveTools
