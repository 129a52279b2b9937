import MoveTools.Library.Codec
import Mathlib.Algebra.Group.Nat.Defs
import Mathlib.Data.Nat.Basic

namespace MoveTools.Uleb

/-- Seven bits a byte, the low ones first; the high bit of a byte says that more follow. -/
def write (n : ℕ) : List UInt8 :=
  if n < 128 then [UInt8.ofNat n] else UInt8.ofNat (n % 128 + 128) :: write (n / 128)

/-- A last byte of zero after another byte is refused: there is one spelling for each number. -/
def read : List UInt8 → Option (ℕ × List UInt8)
  | [] => none
  | b :: bytes =>
    if b.toNat < 128 then some (b.toNat, bytes)
    else (read bytes).bind fun x =>
      if x.1 = 0 then none else some (b.toNat - 128 + 128 * x.1, x.2)

theorem write_small {n : ℕ} (h : n < 128) : write n = [UInt8.ofNat n] := by
  rw [write, if_pos h]

theorem write_large {n : ℕ} (h : ¬n < 128) :
    write n = UInt8.ofNat (n % 128 + 128) :: write (n / 128) := by
  rw [write, if_neg h]

theorem write_ne_nil (n : ℕ) : write n ≠ [] := by
  by_cases h : n < 128
  · simp [write_small h]
  · simp [write_large h]

theorem toNat_ofNat {n : ℕ} (h : n < 256) : (UInt8.ofNat n).toNat = n := by
  simpa using Nat.mod_eq_of_lt h

theorem ofNat_toNat_add (b : UInt8) {n : ℕ} (hb : ¬b.toNat < 128) :
    (b.toNat - 128 + 128 * n) % 128 + 128 = b.toNat ∧ (b.toNat - 128 + 128 * n) / 128 = n := by
  have := b.toNat_lt
  omega

theorem read_write (n : ℕ) (rest : List UInt8) : read (write n ++ rest) = some (n, rest) := by
  induction n using Nat.strong_induction_on with
  | _ n ih =>
    by_cases h : n < 128
    · have hn := toNat_ofNat (show n < 256 by omega)
      rw [write_small h, List.singleton_append, read, hn, if_pos h]
    · have hlow := toNat_ofNat (show n % 128 + 128 < 256 by omega)
      have hhigh := ih (n / 128) (by omega)
      rw [write_large h, List.cons_append, read, hlow, if_neg (by omega), hhigh,
        Option.bind_some, if_neg (by simp only; omega)]
      have hn : n % 128 + 128 - 128 + 128 * (n / 128) = n := by omega
      rw [hn]

theorem write_of_read {bytes rest : List UInt8} {n : ℕ} (h : read bytes = some (n, rest)) :
    bytes = write n ++ rest := by
  induction bytes generalizing n rest with
  | nil => simp [read] at h
  | cons b bytes ih =>
    rw [read] at h
    split at h
    · rename_i hb
      cases h
      simp [write_small hb]
    · rename_i hb
      obtain ⟨⟨m, r⟩, hr, h⟩ := Option.bind_eq_some_iff.mp h
      split at h
      · cases h
      · rename_i hm
        cases h
        obtain ⟨hlow, hhigh⟩ := ofNat_toNat_add b (n := m) hb
        rw [write_large (by simp only at hm ⊢; omega), hlow, hhigh, ih hr]
        simp

theorem length_write_mono {n m : ℕ} (h : n ≤ m) : (write n).length ≤ (write m).length := by
  induction m using Nat.strong_induction_on generalizing n with
  | _ m ih =>
    by_cases hn : n < 128
    · rw [write_small hn]
      exact List.length_pos_iff.mpr (write_ne_nil m)
    · have hm : ¬m < 128 := by omega
      have := ih (m / 128) (by omega) (Nat.div_le_div_right h)
      simpa [write_large hn, write_large hm] using this

theorem length_write_le {n k : ℕ} (h : n < 128 ^ k) : (write n).length ≤ k + 1 := by
  induction k generalizing n with
  | zero =>
    rw [write_small (by omega)]
    exact le_rfl
  | succ k ih =>
    by_cases hn : n < 128
    · rw [write_small hn]
      exact Nat.le_add_left _ _
    · have hrest := ih (n := n / 128) (by rw [pow_succ] at h; omega)
      simpa [write_large hn] using hrest

def codec : Codec ℕ where
  write := write
  read := read
  read_iff := by
    intro bytes n rest
    constructor
    · exact write_of_read
    · rintro rfl
      exact read_write n rest

@[simp] theorem codec_write (n : ℕ) : codec.write n = write n := rfl

def blob : Codec (List UInt8) where
  write w := write w.length ++ w
  read bytes := (codec.read bytes).bind fun x => ((Codec.chunk x.1).read x.2).map fun y => (y.1.1, y.2)
  read_iff := by
    intro bytes w rest
    constructor
    · intro h
      obtain ⟨⟨n, r⟩, hn, h⟩ := Option.bind_eq_some_iff.mp h
      obtain ⟨⟨⟨w, hw⟩, r'⟩, hc, h⟩ := Option.map_eq_some_iff.mp h
      cases h
      rw [codec.read_iff.mp hn, List.append_assoc, hw]
      exact congrArg _ ((Codec.chunk n).read_iff.mp hc)
    · rintro rfl
      have hc := (Codec.chunk w.length).read_write ⟨w, rfl⟩ rest
      have hn := codec.read_write w.length (w ++ rest)
      rw [codec_write, ← List.append_assoc] at hn
      rw [hn, Option.bind_some]
      exact congrArg (Option.map _) hc

@[simp] theorem blob_write (w : List UInt8) : blob.write w = write w.length ++ w := rfl

def row {α : Type} (c : Codec α) : Codec (List α) where
  write xs := write xs.length ++ c.writeAll xs
  read bytes := (codec.read bytes).bind fun x => c.readTimes x.1 x.2
  read_iff := by
    intro bytes xs rest
    constructor
    · intro h
      obtain ⟨⟨n, r⟩, hn, h⟩ := Option.bind_eq_some_iff.mp h
      obtain ⟨hl, hr⟩ := c.readTimes_iff.mp h
      rw [codec.read_iff.mp hn, List.append_assoc, hl]
      exact congrArg _ hr
    · rintro rfl
      have hn := codec.read_write xs.length (c.writeAll xs ++ rest)
      rw [codec_write, ← List.append_assoc] at hn
      rw [hn, Option.bind_some]
      exact c.readTimes_iff.mpr ⟨rfl, rfl⟩

@[simp] theorem row_write {α : Type} (c : Codec α) (xs : List α) :
    (row c).write xs = write xs.length ++ c.writeAll xs := rfl

end MoveTools.Uleb
