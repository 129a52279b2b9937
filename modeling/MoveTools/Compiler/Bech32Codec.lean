import MoveTools.Library.Bech32Code
import MoveTools.Library.Regroup
import MoveTools.Compiler.Dialects

namespace MoveTools.Compiler.Bech32
open DFinance (HRP)

structure CodecCrates extends Crates where
  encode : Text → List ℕ → Option Text

/-- What the documentation of the crates says: a string is the encoding of what it decodes to,
unless it is written in upper case; regrouping keeps the bits. -/
structure CodecCrates.Documented (cr : CodecCrates) : Prop where
  decode_lt : ∀ {w hrp data}, cr.decode w = some (hrp, data) → ∀ d ∈ data, d < 32
  encode_decode : ∀ {w data}, cr.decode w = some (HRP, data) → HRP <+: w →
    cr.encode HRP data = some w
  encode_wallet : ∀ {data}, (∀ d ∈ data, d < 32) →
    ∃ w, cr.encode HRP data = some w ∧ cr.decode w = some (HRP, data)
  convertBits_regroups : ∀ {f t data}, 0 < f → f ≤ 8 → 0 < t → t ≤ 8 → (∀ x ∈ data, x < 2 ^ f) →
    ∃ bits, cr.convertBits data f t true = some bits ∧ Regroup.IsRegrouping f t data bits
  encodeUpper_eq : ∀ {bytes}, (∀ b ∈ bytes, b < 256) → cr.encodeUpper bytes = Hex.encodeUpper bytes

inductive AddressError where
  | ensure (message : String)
  | crates
  deriving DecidableEq

section
variable (cr : CodecCrates)

/-- `u5::try_from_u8` on each value -/
def u5Values (data : List ℕ) : Option (List ℕ) :=
  data.mapM fun x => if x < 32 then some x else none

def libraIntoBech32 (libraAddress : Text) : Except AddressError Text :=
  if ¬"0x".toList.isPrefixOf libraAddress then .error (.ensure "Pass address with 0x prefix")
  else if Text.len libraAddress ≠ 42 then .error (.ensure "Address should be of length 42")
  else
    let encoded := do
      let data ← Hex.decode (libraAddress.drop 2)
      let data ← cr.convertBits data 8 5 true
      let data ← u5Values data
      cr.encode HRP data
    match encoded with
    | some w => .ok w
    | none => .error .crates

/-- A Move address literal that stands for the bytes `a`. -/
def IsLiteralOf (a : List ℕ) (s : Text) : Prop :=
  ∃ digits, s = "0x".toList ++ digits ∧ digits ≠ [] ∧ (∀ c ∈ digits, Hex.isHex c) ∧
    Hex.value digits = Regroup.value 256 a

/-- The address written as `digits` comes back as a literal with its value. -/
def AddressReturns (a : List ℕ) (digits : Text) : Prop :=
  ∃ w libra, libraIntoBech32 cr ("0x".toList ++ digits) = .ok w ∧
    bech32IntoLibra cr.toCrates w = some libra ∧ IsLiteralOf a libra

def StringReturns (w : Text) : Prop :=
  ∃ libra, bech32IntoLibra cr.toCrates w = some libra ∧ libraIntoBech32 cr libra = .ok w

end

theorem value_encodeUpper {bytes : List ℕ} (h : ∀ b ∈ bytes, b < 256) :
    Hex.value (Hex.encodeUpper bytes) = Regroup.value 256 bytes := by
  induction bytes using List.reverseRecOn with
  | nil => rfl
  | append_singleton bytes b ih =>
    have hb : b < 256 := h b (by simp)
    have hhigh := Hex.digitValue_digit_upper (b / 16 % 16) (Nat.mod_lt _ (by decide))
    have hlow := Hex.digitValue_digit_upper (b % 16) (Nat.mod_lt _ (by decide))
    have hencode : Hex.encodeUpper (bytes ++ [b]) =
        (Hex.encodeUpper bytes ++ [Hex.digit 'A' (b / 16 % 16)]) ++ [Hex.digit 'A' (b % 16)] := by
      simp [Hex.encodeUpper, Hex.encode]
    rw [hencode, Hex.value_concat, Hex.value_concat, ih fun c hc => h c (List.mem_append_left _ hc),
      hhigh, hlow, Regroup.value_concat]
    omega

theorem dropWhile_encodeUpper_eq_nil {bytes : List ℕ} (h : ∀ b ∈ bytes, b < 256) :
    (Hex.encodeUpper bytes).dropWhile (· == '0') = [] ↔ ∀ b ∈ bytes, b = 0 := by
  obtain ⟨z, hz, hlen, hzero⟩ := Hex.dropWhile_encodeUpper h
  have hall : bytes.dropWhile (· == 0) = [] ↔ ∀ b ∈ bytes, b = 0 := by
    simp [List.dropWhile_eq_nil_iff]
  rw [← hall, ← List.length_eq_zero_iff, ← List.length_eq_zero_iff]
  rw [← List.length_eq_zero_iff] at hzero
  omega

section
variable {cr : CodecCrates} {bytes data : List ℕ} {w : Text}

theorem u5Values_eq (h : ∀ d ∈ data, d < 32) : u5Values data = some data := by
  induction data with
  | nil => rfl
  | cons d ds ih =>
    obtain ⟨hd, hds⟩ := List.forall_mem_cons.mp h
    have hrest : ds.mapM (fun x => if x < 32 then some x else none) = some ds := ih hds
    rw [u5Values, List.mapM_cons, if_pos hd, hrest]
    rfl

theorem dropWhile_encodeUpper_length (h : ∀ b ∈ bytes, b < 256) (hlen : bytes.length = 20) :
    ((Hex.encodeUpper bytes).dropWhile (· == '0')).length = 40 ↔
      ∃ b rest, bytes = b :: rest ∧ 16 ≤ b := by
  cases bytes with
  | nil => cases hlen
  | cons b rest =>
    have hb : b < 256 := h b List.mem_cons_self
    have hhigh := Hex.digit_upper_eq_zero (b / 16 % 16) (Nat.mod_lt _ (by decide))
    have hall := Hex.encodeUpper_length (b :: rest)
    have hencode : Hex.encodeUpper (b :: rest) =
        Hex.digit 'A' (b / 16 % 16) :: Hex.digit 'A' (b % 16) :: Hex.encodeUpper rest := rfl
    rw [hencode, List.length_cons] at hall
    rw [hencode, List.dropWhile_cons, hhigh]
    by_cases hzero : b / 16 % 16 = 0
    · have hle := (List.dropWhile_suffix (· == '0')
        (l := Hex.digit 'A' (b % 16) :: Hex.encodeUpper rest)).length_le
      rw [if_pos (by simpa using hzero)]
      constructor
      · intro h40
        omega
      · rintro ⟨c, _, hc, hge⟩
        cases hc
        omega
    · rw [if_neg (by simpa using hzero), List.length_cons]
      constructor
      · intro _
        exact ⟨b, rest, rfl, by omega⟩
      · intro _
        omega

theorem CodecCrates.Documented.bech32IntoLibra_eq (h : cr.Documented) {hrp : Text}
    (hw : cr.decode w = some (hrp, data)) :
    ∃ bytes, cr.convertBits data 5 8 true = some bytes ∧ Regroup.IsRegrouping 5 8 data bytes ∧
      bech32IntoLibra cr.toCrates w =
        some ("0x".toList ++ (Hex.encodeUpper bytes).dropWhile (· == '0')) := by
  obtain ⟨bytes, hbits, hregroup⟩ := h.convertBits_regroups (f := 5) (t := 8) (by decide)
    (by decide) (by decide) le_rfl (h.decode_lt hw)
  refine ⟨bytes, hbits, hregroup, ?_⟩
  simp [bech32IntoLibra, hw, hbits, h.encodeUpper_eq hregroup.lt]

theorem len_of_libraIntoBech32 {libra : Text} (h : libraIntoBech32 cr libra = .ok w) :
    Text.len libra = 42 := by
  unfold libraIntoBech32 at h
  split at h
  · cases h
  · split at h
    · cases h
    · rename_i hlen
      exact not_not.mp hlen

theorem CodecCrates.Documented.libraIntoBech32_eq (h : cr.Documented) {digits : Text}
    (hdigits : Hex.decode digits = some bytes) (hlen : bytes.length = 20) :
    ∃ data w, cr.convertBits bytes 8 5 true = some data ∧ Regroup.IsRegrouping 8 5 bytes data ∧
      data.length = 32 ∧ cr.decode w = some (HRP, data) ∧ cr.encode HRP data = some w ∧
      libraIntoBech32 cr ("0x".toList ++ digits) = .ok w := by
  obtain ⟨hdlen, hhex, hbytes⟩ := Hex.decode_eq_some hdigits
  obtain ⟨data, hbits, hregroup⟩ := h.convertBits_regroups (f := 8) (t := 5) (by decide) le_rfl
    (by decide) (by decide) hbytes
  obtain ⟨w, hencode, hdecode⟩ := h.encode_wallet hregroup.lt
  have h32 : data.length = 32 := by
    have hl := hregroup.length
    rwa [hlen] at hl
  have h42 : Text.len ("0x".toList ++ digits) = 42 := by
    have h0x : Text.len "0x".toList = 2 := rfl
    rw [Text.len_append, Hex.len_of_isHex hhex, hdlen, hlen, h0x]
  have hdrop : ("0x".toList ++ digits).drop 2 = digits := rfl
  have hpre : "0x".toList.isPrefixOf ("0x".toList ++ digits) = true :=
    List.isPrefixOf_iff_prefix.mpr (List.prefix_append _ _)
  refine ⟨data, w, hbits, hregroup, h32, hdecode, hencode, ?_⟩
  simp only [libraIntoBech32, hpre, h42, hdrop, hdigits, hbits, u5Values_eq hregroup.lt, hencode,
    not_true_eq_false, ne_eq, if_false, Option.bind_eq_bind, Option.bind_some]

theorem addressReturns_iff (h : cr.Documented) {digits : Text}
    (hdigits : Hex.decode digits = some bytes) (hlen : bytes.length = 20) :
    AddressReturns cr bytes digits ↔ ∃ b ∈ bytes, b ≠ 0 := by
  obtain ⟨_, _, hbytes⟩ := Hex.decode_eq_some hdigits
  obtain ⟨data, w, hbits, hregroup, h32, hdecode, _, hw⟩ := h.libraIntoBech32_eq hdigits hlen
  obtain ⟨bytes', _, hback, hlibra⟩ := h.bech32IntoLibra_eq hdecode
  -- 160 bits fill both the bytes and the groups of five
  obtain rfl : bytes' = bytes := hregroup.inverse hback (by decide) hbytes (by rw [hlen, h32])
  have hzero := not_congr (dropWhile_encodeUpper_eq_nil hbytes)
  simp only [not_forall, exists_prop] at hzero
  rw [← hzero]
  constructor
  · rintro ⟨w', libra, hw', hlibra', digits', rfl, hne, _⟩
    rw [hw] at hw'
    cases hw'
    rw [hlibra] at hlibra'
    have hsame := List.append_cancel_left (Option.some.inj hlibra')
    rwa [← hsame] at hne
  · intro hne
    refine ⟨w, _, hw, hlibra, _, rfl, hne, fun c hc => ?_, ?_⟩
    · exact Hex.isHex_encodeUpper ((List.dropWhile_sublist _).subset hc)
    · rw [Hex.value_dropWhile, value_encodeUpper hbytes]

theorem stringReturns_iff (h : cr.Documented) (hw : cr.decode w = some (HRP, data))
    (hpre : HRP <+: w) (hbits : cr.convertBits data 5 8 true = some bytes)
    (hlen : bytes.length = 20) :
    StringReturns cr w ↔ data.length = 32 ∧ ∃ b rest, bytes = b :: rest ∧ 16 ≤ b := by
  obtain ⟨bytes', hbits', hregroup, hlibra⟩ := h.bech32IntoLibra_eq hw
  obtain rfl : bytes = bytes' := Option.some.inj (hbits.symm.trans hbits')
  rw [← dropWhile_encodeUpper_length hregroup.lt hlen]
  have hall : (Hex.encodeUpper bytes).length = 40 := by rw [Hex.encodeUpper_length, hlen]
  have hfull : ((Hex.encodeUpper bytes).dropWhile (· == '0')).length = 40 →
      (Hex.encodeUpper bytes).dropWhile (· == '0') = Hex.encodeUpper bytes := fun h40 =>
    (List.dropWhile_suffix _).eq_of_length (h40.trans hall.symm)
  obtain ⟨data', w', _, hback, h32, hdecode, hencode, hw'⟩ :=
    h.libraIntoBech32_eq (Hex.decode_encodeUpper hregroup.lt) hlen
  constructor
  · rintro ⟨libra, hl, hreturn⟩
    obtain rfl := Option.some.inj (hlibra.symm.trans hl)
    have h42 := len_of_libraIntoBech32 hreturn
    have h0x : Text.len "0x".toList = 2 := rfl
    rw [Text.len_append, h0x, Hex.len_of_isHex fun c hc =>
      Hex.isHex_encodeUpper ((List.dropWhile_sublist _).subset hc)] at h42
    have h40 : ((Hex.encodeUpper bytes).dropWhile (· == '0')).length = 40 := by omega
    -- the string that was encoded decodes to as many values as it was encoded from
    rw [hfull h40, hw'] at hreturn
    cases hreturn
    rw [hw] at hdecode
    cases hdecode
    exact ⟨h32, h40⟩
  · rintro ⟨hdata, h40⟩
    refine ⟨_, hlibra, ?_⟩
    obtain rfl : data' = data :=
      hregroup.inverse hback (by decide) (h.decode_lt hw) (by rw [hdata, hlen])
    obtain rfl := Option.some.inj (hencode.symm.trans (h.encode_decode hw hpre))
    rw [hfull h40, hw']

/-- Both ways round, an address needs a digit, and a string one that is not zero at the front. -/
theorem codec_roundTrips_iff (cr : CodecCrates) (h : cr.Documented) :
    (∀ a digits, Hex.decode digits = some a → a.length = 20 →
      (AddressReturns cr a digits ↔ ∃ b ∈ a, b ≠ 0)) ∧
    ∀ w data bytes, cr.decode w = some (HRP, data) → HRP <+: w →
      cr.convertBits data 5 8 true = some bytes → bytes.length = 20 →
      (StringReturns cr w ↔ data.length = 32 ∧ ∃ b rest, bytes = b :: rest ∧ 16 ≤ b) :=
  ⟨fun _ _ => addressReturns_iff h, fun _ _ _ => stringReturns_iff h⟩

end

def lowerCaseCrates : CodecCrates where
  decode := Bech32Code.decode
  convertBits data f t _ := if data.all (· < 2 ^ f) then some (Regroup.regroup f t data) else none
  encodeUpper := Hex.encodeUpper
  encode := Bech32Code.encode

theorem lowerCaseCrates_documented : lowerCaseCrates.Documented where
  decode_lt := fun h => (Bech32Code.decode_eq_some.mp h).2
  encode_decode := fun h _ => (Bech32Code.decode_eq_some.mp h).1
  encode_wallet := by
    intro data hdata
    have hencode : Bech32Code.encode HRP data = some _ := if_pos (by decide)
    exact ⟨_, hencode, Bech32Code.decode_eq_some.mpr ⟨hencode, hdata⟩⟩
  convertBits_regroups := by
    intro f t data hf _ ht _ hdata
    have hall : data.all (· < 2 ^ f) = true := by simpa using hdata
    exact ⟨_, if_pos hall, Regroup.isRegrouping_regroup hf ht hdata⟩
  encodeUpper_eq := fun _ => rfl

theorem codec_roundTrips_lowerCase :
    (∀ a digits, Hex.decode digits = some a → a.length = 20 →
      (AddressReturns lowerCaseCrates a digits ↔ ∃ b ∈ a, b ≠ 0)) ∧
    ∀ w data bytes, lowerCaseCrates.decode w = some (HRP, data) → HRP <+: w →
      lowerCaseCrates.convertBits data 5 8 true = some bytes → bytes.length = 20 →
      (StringReturns lowerCaseCrates w ↔ data.length = 32 ∧ ∃ b rest, bytes = b :: rest ∧ 16 ≤ b) :=
  codec_roundTrips_iff _ lowerCaseCrates_documented

/-- The zero address has no digits left, and an address of 39 digits is too short to go back. -/
theorem codec_losses :
    (libraIntoBech32 lowerCaseCrates ("0x".toList ++ List.replicate 40 '0') =
        .ok "wallet1qqqqqqqqqqqqqqqqqqqqqqqqqqqqqqqq74ajrl".toList ∧
      bech32IntoLibra lowerCaseCrates.toCrates
        "wallet1qqqqqqqqqqqqqqqqqqqqqqqqqqqqqqqq74ajrl".toList = some "0x".toList ∧
      ¬AddressReturns lowerCaseCrates (List.replicate 20 0) (List.replicate 40 '0')) ∧
    bech32IntoLibra lowerCaseCrates.toCrates
        "wallet1qyg3zyg3zyg3zyg3zyg3zyg3zyg3zyg3mf8hgr".toList =
      some ("0x".toList ++ List.replicate 39 '1') ∧
    libraIntoBech32 lowerCaseCrates ("0x".toList ++ List.replicate 39 '1') =
      .error (.ensure "Address should be of length 42") := by
  have hzero : ¬AddressReturns lowerCaseCrates (List.replicate 20 0) (List.replicate 40 '0') := by
    rw [addressReturns_iff lowerCaseCrates_documented (by decide) (by decide)]
    decide
  exact ⟨⟨by decide +kernel, by decide +kernel, hzero⟩, by decide +kernel, rfl⟩

end MoveTools.Compiler.Bech32
