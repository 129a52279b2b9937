import MoveTools.Library.Collect
import MoveTools.Library.Text

namespace MoveTools.Bech32Code

def CHARSET : Text := "qpzry9x8gf2tvdw0s3jn54khce6mua7l".toList

def charOf (d : ℕ) : Char := CHARSET.getD d 'q'

def valueOf (c : Char) : Option ℕ := (List.range 32).find? fun d => charOf d == c

theorem valueOf_charOf : ∀ d < 32, valueOf (charOf d) = some d := by decide +kernel

theorem charOf_ne_one : ∀ d < 32, charOf d ≠ '1' := by decide

theorem valueOf_eq_some {c : Char} {d : ℕ} (h : valueOf c = some d) : d < 32 ∧ charOf d = c := by
  have hmem := List.mem_of_find?_eq_some h
  have hc := List.find?_some h
  exact ⟨List.mem_range.mp hmem, by simpa using hc⟩

def GEN : List ℕ := [0x3b6a57b2, 0x26508e6d, 0x1ea119fa, 0x3d4233dd, 0x2a1462b3]

def polymodStep (chk v : ℕ) : ℕ :=
  GEN.zipIdx.foldl (fun chk' g => if (chk >>> 25).testBit g.2 then chk' ^^^ g.1 else chk')
    (((chk &&& 0x1ffffff) <<< 5) ^^^ v)

def hrpExpand (hrp : Text) : List ℕ :=
  hrp.map (·.toNat >>> 5) ++ [0] ++ hrp.map (·.toNat &&& 31)

/-- Six more values, which depend on all others. -/
def createChecksum (hrp : Text) (data : List ℕ) : List ℕ :=
  let polymod := (hrpExpand hrp ++ data ++ List.replicate 6 0).foldl polymodStep 1 ^^^ 1
  (List.range 6).map fun i => (polymod >>> (5 * (5 - i))) % 32

@[simp] theorem createChecksum_length (hrp : Text) (data : List ℕ) :
    (createChecksum hrp data).length = 6 := by
  simp [createChecksum]

theorem createChecksum_lt {hrp : Text} {data : List ℕ} {d : ℕ} (h : d ∈ createChecksum hrp data) :
    d < 32 := by
  obtain ⟨i, _, rfl⟩ := List.mem_map.mp h
  exact Nat.mod_lt _ (by decide)

def checkHrp (hrp : Text) : Bool :=
  !hrp.isEmpty && hrp.all fun c => 33 ≤ c.toNat && c.toNat ≤ 126

def encode (hrp : Text) (data : List ℕ) : Option Text :=
  if checkHrp hrp then some (hrp ++ '1' :: (data ++ createChecksum hrp data).map charOf)
  else none

/-- The last `1` separates the human-readable part. Only lower case is read. -/
def decode (s : Text) : Option (Text × List ℕ) := do
  let hrp := (s.rdropWhile (· != '1')).dropLast
  let values ← (s.rtakeWhile (· != '1')).mapM valueOf
  let data := values.take (values.length - 6)
  if s.contains '1' && checkHrp hrp && 6 ≤ values.length &&
      createChecksum hrp data == values.drop (values.length - 6) then
    some (hrp, data)
  else none

theorem mapM_valueOf {s : Text} {values : List ℕ} :
    s.mapM valueOf = some values ↔ s = values.map charOf ∧ ∀ d ∈ values, d < 32 := by
  induction s generalizing values with
  | nil =>
    rw [List.mapM_nil]
    constructor
    · intro h
      cases h
      simp
    · rintro ⟨h, _⟩
      rw [List.map_eq_nil_iff.mp h.symm]
      rfl
  | cons c s ih =>
    rw [List.mapM_cons]
    constructor
    · intro h
      obtain ⟨d, hd, h⟩ := Option.bind_eq_some_iff.mp h
      obtain ⟨ds, hds, h⟩ := Option.bind_eq_some_iff.mp h
      cases h
      obtain ⟨hlt, rfl⟩ := valueOf_eq_some hd
      obtain ⟨rfl, hall⟩ := ih.mp hds
      exact ⟨rfl, List.forall_mem_cons.mpr ⟨hlt, hall⟩⟩
    · rintro ⟨h, hall⟩
      cases values with
      | nil => cases h
      | cons d ds =>
        obtain ⟨rfl, rfl⟩ := List.cons.inj h
        obtain ⟨hd, hds⟩ := List.forall_mem_cons.mp hall
        rw [valueOf_charOf d hd, ih.mpr ⟨rfl, hds⟩]
        rfl

/-- What is decoded is what is encoded. -/
theorem decode_eq_some {s hrp : Text} {data : List ℕ} :
    decode s = some (hrp, data) ↔ encode hrp data = some s ∧ ∀ d ∈ data, d < 32 := by
  constructor
  · intro h
    obtain ⟨values, hvalues, h⟩ := Option.bind_eq_some_iff.mp h
    obtain ⟨hcheck, h⟩ := Option.ite_none_right_eq_some.mp h
    simp only [Bool.and_eq_true, decide_eq_true_eq, beq_iff_eq, List.contains_iff_mem] at hcheck
    obtain ⟨⟨⟨hone, hhrp⟩, hlen⟩, hsum⟩ := hcheck
    obtain ⟨htail, hlt⟩ := mapM_valueOf.mp hvalues
    cases h
    -- the separator is the last `1` of the text
    have hfront : s.rdropWhile (· != '1') ≠ [] := by
      rw [Ne, List.rdropWhile_eq_nil_iff]
      intro hall
      exact absurd (hall '1' hone) (by decide)
    have hlast : (s.rdropWhile (· != '1')).getLast hfront = '1' := by
      simpa using List.rdropWhile_last_not (· != '1') s hfront
    refine ⟨?_, fun d hd => hlt d (List.mem_of_mem_take hd)⟩
    rw [encode, if_pos hhrp, hsum, List.take_append_drop, ← htail]
    congr 1
    have hsplit : (s.rdropWhile (· != '1')).dropLast ++ ['1'] = s.rdropWhile (· != '1') := by
      have h := List.dropLast_concat_getLast hfront
      rwa [hlast] at h
    calc (s.rdropWhile (· != '1')).dropLast ++ '1' :: s.rtakeWhile (· != '1')
        = ((s.rdropWhile (· != '1')).dropLast ++ ['1']) ++ s.rtakeWhile (· != '1') := by
          rw [List.append_assoc, List.singleton_append]
      _ = s.rdropWhile (· != '1') ++ s.rtakeWhile (· != '1') := by rw [hsplit]
      _ = s := List.rdropWhile_append_rtakeWhile
  · rintro ⟨h, hdata⟩
    obtain ⟨hhrp, h⟩ := Option.ite_none_right_eq_some.mp h
    have hlt : ∀ d ∈ data ++ createChecksum hrp data, d < 32 := by
      intro d hd
      exact (List.mem_append.mp hd).elim (hdata d) createChecksum_lt
    have hchars : ∀ c ∈ (data ++ createChecksum hrp data).map charOf, (c != '1') = true := by
      intro c hc
      obtain ⟨d, hd, rfl⟩ := List.mem_map.mp hc
      simpa using charOf_ne_one d (hlt d hd)
    obtain ⟨htake, hdrop⟩ := Text.rtakeWhile_append_cons (p := (· != '1')) (a := hrp) (c := '1') rfl hchars
    cases h
    have hlen : (data ++ createChecksum hrp data).length - 6 = data.length := by simp
    have hvalues := mapM_valueOf.mpr ⟨rfl, hlt⟩
    have htakes : (data ++ createChecksum hrp data).take data.length = data :=
      List.take_left
    have hdrops : (data ++ createChecksum hrp data).drop data.length = createChecksum hrp data :=
      List.drop_left
    have hcheck : ((hrp ++ '1' :: (data ++ createChecksum hrp data).map charOf).contains '1' &&
        checkHrp hrp && 6 ≤ (data ++ createChecksum hrp data).length &&
          createChecksum hrp data == createChecksum hrp data) = true := by
      simp [hhrp]
    simp only [decode, htake, hdrop, hvalues, Option.bind_eq_bind, Option.bind_some, hlen, htakes,
      hdrops, List.dropLast_concat]
    exact if_pos hcheck

example : decode "wallet1me0cdn52672y7feddy7tgcj6j4dkzq2su745vh".toList =
    some ("wallet".toList, [27, 25, 15, 24, 13, 19, 20, 10, 26, 30, 10, 4, 30, 9, 25, 13, 13, 4,
      30, 11, 8, 24, 18, 26, 18, 21, 13, 22, 2, 0, 10, 16]) := by decide +kernel

end MoveTools.Bech32Code
