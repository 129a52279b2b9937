import MoveTools.Library.Regex
import MoveTools.Compiler.SourceMap

namespace MoveTools.Compiler.AddressLayers
open Regex Splice

variable (toLibra : Text → Option Text)

/-- The loop body of `replace_bech32_addresses` and `replace_ss58_addresses`. -/
def step (x : Text × FileOffsetMap) (item : Capture) : Text × FileOffsetMap :=
  let origAddress := item.text
  -- libra match, don't replace
  if "0x".toList.isPrefixOf origAddress then x
  else
    match toLibra origAddress with
    | some libraAddress =>
      (x.1.replace origAddress libraAddress,
        x.2.insertAddressLayer item.stop origAddress libraAddress)
    | none => x

/-- Both loops run over the matches in the original text, and rewrite a copy of it. -/
def replaceAddresses (items : List Capture) (source : Text) (map : FileOffsetMap) :
    Text × FileOffsetMap :=
  items.foldl (step toLibra) (source, map)

/-- An address found in a text, where it ends there, and what stands for it afterwards. -/
structure Found where
  stop : ℕ
  address : Text
  libra : Text
  deriving DecidableEq

def asFound (item : Capture) : Option Found :=
  if "0x".toList.isPrefixOf item.text then none
  else (toLibra item.text).map fun libra => ⟨item.stop, item.text, libra⟩

def found (items : List Capture) : List Found := items.filterMap (asFound toLibra)

/-- Every address is replaced wherever it occurs, one address after the other. -/
def substituteAll (addresses : List Found) (source : Text) : Text :=
  addresses.foldl (fun t a => t.replace a.address a.libra) source

def loggedFrom (e : ℕ) : List (Piece Text) → List Found
  | [] => []
  | .keep w :: ps => loggedFrom (e + Text.len w) ps
  | .sub old _ false :: ps => loggedFrom (e + Text.len old) ps
  | .sub old new true :: ps => ⟨e + Text.len old, old, new⟩ :: loggedFrom (e + Text.len old) ps

/-- `t` read as `source` with valid addresses substituted. The logged ones are those found in
`source`; the others are further occurrences of their texts. -/
structure Reads (addresses : List Found) (source t : Text) (ps : List (Piece Text)) : Prop where
  source_eq : sourceText ps = source
  target_eq : targetText ps = t
  valid : ∀ old new logged, .sub old new logged ∈ ps → toLibra old = some new
  logged_eq : loggedFrom 0 ps = addresses

variable (items : List Capture) (source : Text)

/-- Every point outside the substituted addresses is led back to the same point of `source`. -/
def KeepsPositions : Prop :=
  let x := replaceAddresses toLibra items source {}
  ∃ ps, Reads toLibra (found toLibra items) source x.1 ps ∧
    ∀ p q, SamePoint (ps.map (.map Text.len)) p q → x.2.translatePos p = q

variable {toLibra items source}

theorem step_eq (x : Text × FileOffsetMap) (item : Capture) :
    step toLibra x item = match asFound toLibra item with
      | none => x
      | some a => (x.1.replace a.address a.libra, x.2.insertAddressLayer a.stop a.address a.libra) := by
  unfold step asFound
  by_cases h0x : "0x".toList.isPrefixOf item.text
  · rw [if_pos h0x, if_pos h0x]
  · rw [if_neg h0x, if_neg h0x]
    cases toLibra item.text <;> rfl

theorem asFound_eq_some {item : Capture} {a : Found} (h : asFound toLibra item = some a) :
    a.address = item.text ∧ toLibra a.address = some a.libra ∧ ¬ "0x".toList <+: a.address := by
  unfold asFound at h
  split at h
  · cases h
  · rename_i h0x
    obtain ⟨libra, hlibra, rfl⟩ := Option.map_eq_some_iff.mp h
    exact ⟨rfl, hlibra, fun hpre => h0x (List.isPrefixOf_iff_prefix.mpr hpre)⟩

theorem replaceAddresses_eq (map : FileOffsetMap) :
    (replaceAddresses toLibra items source map).1 =
        substituteAll (found toLibra items) source ∧
      (replaceAddresses toLibra items source map).2.layers = map.layers ++
        (found toLibra items).map fun a => ⟨a.stop, lenDifference a.address a.libra⟩ := by
  induction items generalizing source map with
  | nil => simp [replaceAddresses, found, substituteAll]
  | cons item items ih =>
    have hstep : replaceAddresses toLibra (item :: items) source map =
        replaceAddresses toLibra items (step toLibra (source, map) item).1
          (step toLibra (source, map) item).2 := rfl
    rw [hstep, (ih _).1, (ih _).2, step_eq]
    cases ha : asFound toLibra item with
    | none => simp [found, ha]
    | some a => simp [found, ha, substituteAll]

theorem endShifts_map_len (e : ℕ) (ps : List (Piece Text)) :
    endShifts e (ps.map (.map Text.len)) =
      (loggedFrom e ps).map fun a => (a.stop, lenDifference a.address a.libra) := by
  induction ps generalizing e with
  | nil => rfl
  | cons x ps ih =>
    match x with
    | .keep w => exact ih _
    | .sub old new false => exact ih _
    | .sub old new true => exact congrArg (_ :: ·) (ih _)

variable {t : Text} {ps : List (Piece Text)}

theorem Reads.translatePos_eq (h : Reads toLibra (found toLibra items) source t ps) (p : ℕ) :
    (replaceAddresses toLibra items source {}).2.translatePos p =
      unwind (fun x p => (layerOf x).translate p) (endShifts 0 (ps.map (.map Text.len))) p := by
  rw [translatePos_eq_unwind, (replaceAddresses_eq _).2, endShifts_map_len, h.logged_eq]
  simp [shiftOf, Function.comp_def]

theorem Reads.atMostDoubled (hlen : ∀ {a r}, toLibra a = some r → Text.len r ≤ 2 * Text.len a)
    {addresses : List Found} (h : Reads toLibra addresses source t ps) :
    AtMostDoubled (ps.map (.map Text.len)) := by
  intro x hx
  obtain ⟨y, hy, rfl⟩ := List.mem_map.mp hx
  rw [Piece.source_map, Piece.target_map]
  cases y with
  | keep w =>
    simp only [Piece.source, Piece.target]
    omega
  | sub old new logged => exact hlen (h.valid _ _ _ hy)

/-- Layers stand at the ends that addresses have in the original text, so they lead back from the
rewritten one exactly where its pieces are recoverable from such ends. -/
theorem keepsPositions_iff_recoverable
    (hlen : ∀ {a r}, toLibra a = some r → Text.len r ≤ 2 * Text.len a) :
    KeepsPositions toLibra items source ↔
      ∃ ps, Reads toLibra (found toLibra items) source
          (substituteAll (found toLibra items) source) ps ∧
        Recoverable 0 0 (ps.map (.map Text.len)) := by
  simp only [KeepsPositions, (replaceAddresses_eq _).1]
  refine exists_congr fun ps => and_congr_right fun he => ?_
  rw [← unwind_iff_recoverable layer_shiftRule (he.atMostDoubled hlen)]
  simp only [he.translatePos_eq]

theorem KeepsPositions.end (h : KeepsPositions toLibra items source) :
    (replaceAddresses toLibra items source {}).2.translatePos
      (Text.len (replaceAddresses toLibra items source {}).1) = Text.len source := by
  obtain ⟨ps, he, hp⟩ := h
  have := hp _ _ (SamePoint.end (ps.map (.map Text.len)))
  rwa [targetLen_map_len, sourceLen_map_len, he.target_eq, he.source_eq] at this

end MoveTools.Compiler.AddressLayers
