import MoveTools.Library.Hex
import MoveTools.Compiler.AddressLayers

namespace MoveTools.Compiler.Ss58
open Regex Splice AddressLayers

def PUB_KEY_LENGTH : ℕ := 32

/-- The functions of the `rust_base58`, `blake2_rfc` and `hex` crates that are called.
`blake2b` is the 64-byte digest of the concatenated updates. -/
structure Crates where
  fromBase58 : Text → Option (List ℕ)
  blake2b : List (List ℕ) → List ℕ
  encodeUpper : List ℕ → Text

/-- What the documentation of these crates says about lengths: a base58 digit carries less than
a byte, and five bytes never take more than seven digits (rounding up once). -/
structure Crates.Documented (cr : Crates) : Prop where
  fromBase58_le : ∀ {a bytes}, cr.fromBase58 a = some bytes → bytes.length ≤ Text.len a
  fromBase58_ge : ∀ {a bytes}, cr.fromBase58 a = some bytes →
    5 * Text.len a ≤ 7 * bytes.length + 5
  encodeUpper_len : ∀ bytes, Text.len (cr.encodeUpper bytes) = 2 * bytes.length

def isBase58Char (c : Char) : Bool :=
  c.isAlphanum && c != '0' && c != 'O' && c != 'I' && c != 'l'

/-- `[1-9A-HJ-NP-Za-km-z]{40,}` -/
def SS58_REGEX : List Item := [⟨isBase58Char, 40, none⟩]

variable (cr : Crates)

/-- `b"SS58PRE"` -/
def SS58_PREFIX : List ℕ := [0x53, 0x53, 0x35, 0x38, 0x50, 0x52, 0x45]

def ss58hash (data : List ℕ) : List ℕ := cr.blake2b [SS58_PREFIX, data]

def ss58ToLibra (ss58 : Text) : Option Text :=
  match cr.fromBase58 ss58 with
  | none => none
  | some bs58 =>
    if bs58.length = PUB_KEY_LENGTH + 3 then
      if (bs58.drop (PUB_KEY_LENGTH + 1)).take 2 =
          (ss58hash cr (bs58.take (PUB_KEY_LENGTH + 1))).take 2 then
        some ("0x".toList ++ cr.encodeUpper ((bs58.drop 1).take PUB_KEY_LENGTH))
      else none
    else none

def items (source : Text) : List Capture :=
  captures 0 1 0 (findAll SS58_REGEX source.length source)

def replaceSs58Addresses (source : Text) (map : FileOffsetMap) : Text × FileOffsetMap :=
  replaceAddresses (ss58ToLibra cr) (items source) source map

def KeepsPositions (source : Text) : Prop :=
  AddressLayers.KeepsPositions (ss58ToLibra cr) (items source) source

def lengths (ps : List (Piece ℕ)) : List ℕ :=
  ps.filterMap fun
    | .keep _ => none
    | .sub old _ _ => some old

def Logged (ps : List (Piece ℕ)) : Prop := ∀ old new, .sub old new false ∉ ps

/-- Every replacement has 66 bytes. In some reading of `source` with its addresses substituted,
every substituted address is one that was found, and is longer than all those before it grow
together. -/
def GrowsLittle (source : Text) : Prop :=
  let addresses := found (ss58ToLibra cr) (items source)
  ∃ ps, Reads (ss58ToLibra cr) addresses source (substituteAll addresses source) ps ∧
    Logged (ps.map (.map Text.len)) ∧
    ∀ i o, (lengths (ps.map (.map Text.len)))[i]? = some o →
      (((lengths (ps.map (.map Text.len))).take i).map (66 - ·)).sum < o

theorem ss58ToLibra_len {cr : Crates} (h : cr.Documented) {a r : Text}
    (ha : ss58ToLibra cr a = some r) : Text.len r = 66 ∧ 35 ≤ Text.len a ∧ Text.len a < 66 := by
  cases hb : cr.fromBase58 a with
  | none => simp [ss58ToLibra, hb] at ha
  | some bytes =>
    simp only [ss58ToLibra, hb, Option.ite_none_right_eq_some, Option.some.injEq] at ha
    obtain ⟨hlen, -, rfl⟩ := ha
    simp only [PUB_KEY_LENGTH] at hlen ⊢
    have h1 := h.fromBase58_le hb
    have h2 := h.fromBase58_ge hb
    have h3 := h.encodeUpper_len ((bytes.drop 1).take 32)
    have h4 : Text.len "0x".toList = 2 := rfl
    rw [List.length_take, List.length_drop] at h3
    rw [Text.len_append, h4]
    omega

/-- Where every replacement has 66 bytes and is longer than what it replaces, only the growth up
to the next address matters. -/
theorem recoverable_iff {ps : List (Piece ℕ)}
    (hps : ∀ old new logged, .sub old new logged ∈ ps → new = 66 ∧ old < 66) {e g : ℕ} :
    Recoverable e (e + g) ps ↔ Logged ps ∧
      ∀ i o, (lengths ps)[i]? = some o → g + (((lengths ps).take i).map (66 - ·)).sum < o := by
  induction ps generalizing e g with
  | nil => simp [Recoverable, Logged, lengths]
  | cons x ps ih =>
    have ih := fun {e g : ℕ} => ih (fun old new l h => hps old new l (List.mem_cons_of_mem _ h))
      (e := e) (g := g)
    match x with
    | .keep w =>
      have : e + g + w = e + w + g := by omega
      simpa [Recoverable, this, Logged, lengths] using ih
    | .sub old new false =>
      have := hps old new false (List.mem_cons_self ..)
      constructor
      · intro h
        have := h.1
        omega
      · intro h
        exact absurd (List.mem_cons_self ..) (h.1 old new)
    | .sub old new true =>
      obtain ⟨rfl, hold⟩ := hps old new true (List.mem_cons_self ..)
      -- `g` is how much longer the text got before this address
      have hnext : e + g + 66 = e + old + (g + (66 - old)) := by omega
      simp only [Recoverable]
      rw [hnext, ih]
      constructor
      · rintro ⟨h1, hl, h2⟩
        refine ⟨by simpa [Logged] using hl, fun i o hi => ?_⟩
        cases i with
        | zero =>
          have : old = o := by simpa [lengths] using hi
          have := (h1 (by omega)).1
          simp only [List.take_zero, List.map_nil, List.sum_nil]
          omega
        | succ i =>
          have := h2 i o (by simpa [lengths] using hi)
          simpa [lengths, add_assoc] using this
      · rintro ⟨hl, h2⟩
        refine ⟨fun _ => ⟨?_, by omega⟩, by simpa [Logged] using hl, fun i o hi => ?_⟩
        · have := h2 0 old (by simp [lengths])
          simp at this
          omega
        · have := h2 (i + 1) o (by simpa [lengths] using hi)
          simpa [lengths, add_assoc] using this

theorem sizes_of_reads {cr : Crates} (h : cr.Documented) {addresses : List Found} {source t : Text}
    {ps : List (Piece Text)} (hr : Reads (ss58ToLibra cr) addresses source t ps) {old new : ℕ}
    {logged : Bool} (hm : Piece.sub old new logged ∈ ps.map (Piece.map Text.len)) :
    new = 66 ∧ old < 66 := by
  obtain ⟨y, hy, heq⟩ := List.mem_map.mp hm
  cases y with
  | keep w => cases heq
  | sub o r l =>
    cases heq
    have := ss58ToLibra_len h (hr.valid _ _ _ hy)
    exact ⟨this.1, this.2.2⟩

/-- Layers stand at the ends that addresses have in the original text, so those after the third
address are found too early: three addresses of 47 bytes already grow by 57. -/
theorem ss58_keepsPositions_iff (h : cr.Documented) (source : Text) :
    KeepsPositions cr source ↔ GrowsLittle cr source := by
  have hlen : ∀ {a r}, ss58ToLibra cr a = some r → Text.len r ≤ 2 * Text.len a := fun ha => by
    have := ss58ToLibra_len h ha
    omega
  refine (keepsPositions_iff_recoverable hlen).trans
    (exists_congr fun ps => and_congr_right fun hr => ?_)
  have := recoverable_iff (fun old new logged => sizes_of_reads h hr) (e := 0) (g := 0)
  simpa using this

def polkaCrates : Crates where
  fromBase58 a :=
    if a = "G7UkJAutjbQyZGRiP8z5bBSBPBJ66JbTKAkFDq3cANwENyX".toList then
      some [2, 156, 120, 96, 144, 226, 89, 138, 232, 132, 255, 157, 31, 1, 214, 161, 169, 186, 241,
        58, 158, 97, 247, 54, 51, 168, 146, 143, 77, 128, 191, 125, 254, 54, 10]
    else none
  blake2b _ :=
    [54, 10, 242, 118, 27, 87, 2, 184, 248, 154, 191, 205, 60, 203, 178, 67, 142, 83, 24, 140, 26,
      183, 115, 184, 244, 141, 76, 166, 221, 108, 102, 18, 12, 192, 47, 189, 108, 72, 205, 173, 169,
      242, 103, 79, 197, 122, 95, 73, 252, 96, 235, 30, 198, 138, 85, 113, 193, 118, 26, 14, 2, 107,
      247, 165]
  encodeUpper := Hex.encodeUpper

theorem polkaCrates_documented : polkaCrates.Documented where
  fromBase58_le := by
    intro a bytes h
    simp only [polkaCrates, Option.ite_none_right_eq_some, Option.some.injEq] at h
    obtain ⟨rfl, rfl⟩ := h
    decide
  fromBase58_ge := by
    intro a bytes h
    simp only [polkaCrates, Option.ite_none_right_eq_some, Option.some.injEq] at h
    obtain ⟨rfl, rfl⟩ := h
    decide
  encodeUpper_len := Hex.encodeUpper_len

def fourAddresses : Text :=
  ("G7UkJAutjbQyZGRiP8z5bBSBPBJ66JbTKAkFDq3cANwENyX " ++
    "G7UkJAutjbQyZGRiP8z5bBSBPBJ66JbTKAkFDq3cANwENyX " ++
    "G7UkJAutjbQyZGRiP8z5bBSBPBJ66JbTKAkFDq3cANwENyX " ++
    "G7UkJAutjbQyZGRiP8z5bBSBPBJ66JbTKAkFDq3cANwENyX").toList

/-- Where every substituted address was found, those found have the lengths of the pieces. -/
theorem lengths_eq {ps : List (Piece Text)} (hl : Logged (ps.map (.map Text.len))) (e : ℕ) :
    lengths (ps.map (.map Text.len)) = (loggedFrom e ps).map fun a => Text.len a.address := by
  induction ps generalizing e with
  | nil => rfl
  | cons x ps ih =>
    have hl' : Logged (ps.map (.map Text.len)) := fun old new hm =>
      hl old new (List.mem_cons_of_mem _ hm)
    match x with
    | .keep w => exact ih hl' _
    | .sub old new false => exact absurd (List.mem_cons_self ..) (hl (Text.len old) (Text.len new))
    | .sub old new true => exact congrArg (_ :: ·) (ih hl' _)

theorem fourAddresses_lost : ¬ KeepsPositions polkaCrates fourAddresses := by
  have hlen : ∀ {a r}, ss58ToLibra polkaCrates a = some r → Text.len r ≤ 2 * Text.len a :=
    fun ha => by
      have := ss58ToLibra_len polkaCrates_documented ha
      omega
  rw [KeepsPositions, keepsPositions_iff_recoverable hlen]
  rintro ⟨ps, hr, hrec⟩
  obtain ⟨hl, hg⟩ := (recoverable_iff
    (fun old new logged => sizes_of_reads polkaCrates_documented hr) (e := 0) (g := 0)).mp hrec
  have hfound : (found (ss58ToLibra polkaCrates) (items fourAddresses)).map
      (fun a => Text.len a.address) = [47, 47, 47, 47] := by
    decide +kernel
  have hlengths := lengths_eq hl 0
  rw [hr.logged_eq, hfound] at hlengths
  have := hg 3 47 (by rw [hlengths]; rfl)
  rw [hlengths] at this
  simp at this

theorem ss58_keepsPositions_iff_fourAddresses :
    KeepsPositions polkaCrates fourAddresses ↔ GrowsLittle polkaCrates fourAddresses :=
  ss58_keepsPositions_iff _ polkaCrates_documented _

end MoveTools.Compiler.Ss58
