import Mathlib.Data.List.Induction
import MoveTools.Library.Text

namespace MoveTools.Hex

def digit (letters : Char) (n : ℕ) : Char :=
  if n < 10 then Char.ofNat ('0'.toNat + n) else Char.ofNat (letters.toNat + (n - 10))

/-- Two digits for each byte, the high one first. -/
def encode (letters : Char) (bytes : List ℕ) : Text :=
  bytes.flatMap fun b => [digit letters (b / 16 % 16), digit letters (b % 16)]

def encodeUpper : List ℕ → Text := encode 'A'

def encodeLower : List ℕ → Text := encode 'a'

theorem digit_upper_size : ∀ n < 16, (digit 'A' n).utf8Size = 1 := by decide

theorem encodeUpper_len (bytes : List ℕ) : Text.len (encodeUpper bytes) = 2 * bytes.length := by
  induction bytes with
  | nil => rfl
  | cons b bytes ih =>
    have h1 := digit_upper_size (b / 16 % 16) (Nat.mod_lt _ (by omega))
    have h2 := digit_upper_size (b % 16) (Nat.mod_lt _ (by omega))
    simp only [encodeUpper, encode, List.flatMap_cons, Text.len_append, Text.len_cons,
      Text.len_nil, List.length_cons] at ih ⊢
    omega

theorem encodeUpper_length (bytes : List ℕ) : (encodeUpper bytes).length = 2 * bytes.length := by
  simp [encodeUpper, encode, List.length_flatMap, Nat.mul_comm]

def isLower (c : Char) : Bool := ('0' ≤ c && c ≤ '9') || ('a' ≤ c && c ≤ 'f')

/-- A digit, with a letter in either case. -/
def isHex (c : Char) : Bool := isLower c || ('A' ≤ c && c ≤ 'F')

def digitValue (c : Char) : ℕ :=
  if c ≤ '9' then c.toNat - '0'.toNat
  else if c ≤ 'F' then c.toNat - 'A'.toNat + 10
  else c.toNat - 'a'.toNat + 10

def value (s : Text) : ℕ := s.foldl (fun n c => 16 * n + digitValue c) 0

theorem value_append_congr {a b : Text} (s : Text) (h : value a = value b) :
    value (a ++ s) = value (b ++ s) := by
  unfold value at h ⊢
  rw [List.foldl_append, List.foldl_append, h]

theorem value_replicate_zero (k : ℕ) (s : Text) : value (List.replicate k '0' ++ s) = value s := by
  apply value_append_congr (b := []) s
  induction k with
  | zero => rfl
  | succ k ih =>
    rw [value] at ih ⊢
    rw [List.replicate_succ', List.foldl_append, ih]
    rfl

theorem isHex_digit_upper : ∀ n < 16, isHex (digit 'A' n) := by decide

theorem isHex_encodeUpper {bytes : List ℕ} {c : Char} (h : c ∈ encodeUpper bytes) : isHex c := by
  obtain ⟨b, _, hc⟩ := List.mem_flatMap.mp h
  simp only [List.mem_cons, List.not_mem_nil, or_false] at hc
  rcases hc with rfl | rfl
  · exact isHex_digit_upper _ (Nat.mod_lt _ (by omega))
  · exact isHex_digit_upper _ (Nat.mod_lt _ (by omega))

theorem isHex_iff {c : Char} : isHex c ↔
    (0x30 ≤ c.toNat ∧ c.toNat ≤ 0x39 ∨ 0x61 ≤ c.toNat ∧ c.toNat ≤ 0x66) ∨
      0x41 ≤ c.toNat ∧ c.toNat ≤ 0x46 := by
  simp only [isHex, isLower, Bool.or_eq_true, Bool.and_eq_true, decide_eq_true_eq, Char.le_def,
    UInt32.le_iff_toNat_le, Char.reduceVal, UInt32.reduceToNat, Char.toNat_val]

theorem isAlphanum_of_isHex {c : Char} (h : isHex c) : c.isAlphanum := by
  have hrange := isHex_iff.mp h
  apply Text.isAlphanum_iff.mpr
  omega

theorem isHex_of_isLower {c : Char} (h : isLower c) : isHex c := by
  simp [isHex, h]

theorem value_concat (s : Text) (c : Char) : value (s ++ [c]) = 16 * value s + digitValue c := by
  simp [value]

theorem digitValue_lt {c : Char} (h : isHex c) : digitValue c < 16 := by
  have hrange := isHex_iff.mp h
  simp only [digitValue, Char.le_def, UInt32.le_iff_toNat_le, Char.reduceVal, UInt32.reduceToNat,
    Char.reduceToNat, Char.toNat_val]
  split
  · omega
  · split <;> omega

theorem value_lt {s : Text} (h : ∀ c ∈ s, isHex c) : value s < 16 ^ s.length := by
  induction s using List.reverseRecOn with
  | nil => decide
  | append_singleton s c ih =>
    have h1 := ih fun d hd => h d (List.mem_append_left _ hd)
    have h2 := digitValue_lt (h c (List.mem_append_right _ List.mem_cons_self))
    rw [value_concat, List.length_append, List.length_singleton, Nat.pow_succ]
    omega

def ofNat : ℕ → ℕ → Text
  | 0, _ => []
  | n + 1, a => ofNat n (a / 16) ++ [digit 'a' (a % 16)]

@[simp] theorem ofNat_length (n a : ℕ) : (ofNat n a).length = n := by
  induction n generalizing a with
  | zero => rfl
  | succ n ih => simp [ofNat, ih]

theorem digit_lower : ∀ n < 16, isLower (digit 'a' n) ∧ digitValue (digit 'a' n) = n := by decide

theorem isLower_encodeLower {bytes : List ℕ} {c : Char} (h : c ∈ encodeLower bytes) : isLower c := by
  obtain ⟨b, _, hc⟩ := List.mem_flatMap.mp h
  simp only [List.mem_cons, List.not_mem_nil, or_false] at hc
  rcases hc with rfl | rfl
  · exact (digit_lower _ (Nat.mod_lt _ (by omega))).1
  · exact (digit_lower _ (Nat.mod_lt _ (by omega))).1

theorem isLower_ofNat {n a : ℕ} {c : Char} (h : c ∈ ofNat n a) : isLower c := by
  induction n generalizing a with
  | zero => cases h
  | succ n ih =>
    rcases List.mem_append.mp h with h | h
    · exact ih h
    · obtain rfl := List.mem_singleton.mp h
      exact (digit_lower _ (Nat.mod_lt _ (by omega))).1

theorem value_ofNat {n a : ℕ} (h : a < 16 ^ n) : value (ofNat n a) = a := by
  induction n generalizing a with
  | zero =>
    have : a = 0 := by simpa using h
    subst this
    rfl
  | succ n ih =>
    rw [Nat.pow_succ] at h
    rw [ofNat, value_concat, ih (by omega), (digit_lower _ (Nat.mod_lt _ (by omega))).2]
    omega

theorem ofNat_add (k n a : ℕ) (h : a < 16 ^ n) : ofNat (k + n) a = List.replicate k '0' ++ ofNat n a := by
  induction n generalizing a with
  | zero =>
    have : a = 0 := by simpa using h
    subst this
    induction k with
    | zero => rfl
    | succ k ih =>
      have hzero : ofNat (k + 1) 0 = ofNat k 0 ++ ['0'] := rfl
      rw [Nat.add_zero] at ih ⊢
      rw [hzero, ih, List.replicate_succ', ofNat, List.append_nil, List.append_nil]
  | succ n ih =>
    rw [Nat.pow_succ] at h
    rw [← Nat.add_assoc, ofNat, ih (a / 16) (by omega), ofNat, List.append_assoc]

theorem digit_upper_eq_zero : ∀ n < 16, (digit 'A' n == '0') = (n == 0) := by decide

theorem dropWhile_encodeUpper {bytes : List ℕ} (h : ∀ b ∈ bytes, b < 256) :
    ∃ z ≤ 1, ((encodeUpper bytes).dropWhile (· == '0')).length + z =
        2 * (bytes.dropWhile (· == 0)).length ∧
      (bytes.dropWhile (· == 0) = [] → z = 0) := by
  induction bytes with
  | nil => exact ⟨0, by decide⟩
  | cons b bytes ih =>
    have hb : b < 256 := h b List.mem_cons_self
    have hhigh := digit_upper_eq_zero (b / 16 % 16) (Nat.mod_lt _ (by omega))
    have hlow := digit_upper_eq_zero (b % 16) (Nat.mod_lt _ (by omega))
    have hencode : encodeUpper (b :: bytes) =
        digit 'A' (b / 16 % 16) :: digit 'A' (b % 16) :: encodeUpper bytes := rfl
    have hlen := encodeUpper_length bytes
    rw [hencode, List.dropWhile_cons, hhigh]
    by_cases h1 : b / 16 % 16 = 0
    · rw [if_pos (by simp [h1]), List.dropWhile_cons, hlow]
      by_cases h2 : b % 16 = 0
      · obtain rfl : b = 0 := by omega
        simpa using ih fun c hc => h c (List.mem_cons_of_mem _ hc)
      · have hne : b ≠ 0 := by omega
        exact ⟨1, by omega, by simp [h2, hne, hlen]; omega, by simp [hne]⟩
    · have hne : b ≠ 0 := by omega
      exact ⟨0, by omega, by simp [h1, hne, hlen]; omega, by simp [hne]⟩

def decode : Text → Option (List ℕ)
  | [] => some []
  | [_] => none
  | c :: d :: s =>
    if isHex c && isHex d then (decode s).map ((16 * digitValue c + digitValue d) :: ·) else none

theorem decode_eq_some {s : Text} {bytes : List ℕ} (h : decode s = some bytes) :
    s.length = 2 * bytes.length ∧ (∀ c ∈ s, isHex c) ∧ ∀ b ∈ bytes, b < 256 := by
  fun_induction decode s generalizing bytes with
  | case1 =>
    cases h
    simp
  | case2 => cases h
  | case3 c d s hhex ih =>
    obtain ⟨rest, hrest, rfl⟩ := Option.map_eq_some_iff.mp h
    obtain ⟨hlen, hs, hbytes⟩ := ih hrest
    obtain ⟨hc, hd⟩ := Bool.and_eq_true_iff.mp hhex
    have h1 := digitValue_lt hc
    have h2 := digitValue_lt hd
    refine ⟨by simp only [List.length_cons]; omega, ?_, ?_⟩
    · exact List.forall_mem_cons.mpr ⟨hc, List.forall_mem_cons.mpr ⟨hd, hs⟩⟩
    · exact List.forall_mem_cons.mpr ⟨by omega, hbytes⟩
  | case4 => cases h

theorem digitValue_digit_upper : ∀ n < 16, digitValue (digit 'A' n) = n := by decide

theorem decode_encode {letters : Char}
    (hdigit : ∀ n < 16, isHex (digit letters n) ∧ digitValue (digit letters n) = n)
    {bytes : List ℕ} (h : ∀ b ∈ bytes, b < 256) : decode (encode letters bytes) = some bytes := by
  induction bytes with
  | nil => rfl
  | cons b bytes ih =>
    obtain ⟨hb, hbytes⟩ := List.forall_mem_cons.mp h
    obtain ⟨hhigh, hhighValue⟩ := hdigit (b / 16 % 16) (Nat.mod_lt _ (by decide))
    obtain ⟨hlow, hlowValue⟩ := hdigit (b % 16) (Nat.mod_lt _ (by decide))
    have hencode : encode letters (b :: bytes) =
        digit letters (b / 16 % 16) :: digit letters (b % 16) :: encode letters bytes := rfl
    rw [hencode, decode, hhigh, hlow, Bool.and_self, if_pos rfl, ih hbytes, hhighValue, hlowValue]
    rw [Option.map_some, show 16 * (b / 16 % 16) + b % 16 = b by omega]

theorem decode_encodeUpper {bytes : List ℕ} (h : ∀ b ∈ bytes, b < 256) :
    decode (encodeUpper bytes) = some bytes :=
  decode_encode (fun n hn => ⟨isHex_digit_upper n hn, digitValue_digit_upper n hn⟩) h

theorem decode_encodeLower {bytes : List ℕ} (h : ∀ b ∈ bytes, b < 256) :
    decode (encodeLower bytes) = some bytes :=
  decode_encode (fun n hn => ⟨isHex_of_isLower (digit_lower n hn).1, (digit_lower n hn).2⟩) h

theorem encodeUpper_injective {bytes bytes' : List ℕ} (h : ∀ b ∈ bytes, b < 256)
    (h' : ∀ b ∈ bytes', b < 256) (heq : encodeUpper bytes = encodeUpper bytes') :
    bytes = bytes' := by
  apply Option.some.inj
  rw [← decode_encodeUpper h, heq, decode_encodeUpper h']

theorem encodeLower_bytes_injective {bytes bytes' : List UInt8}
    (h : encodeLower (bytes.map UInt8.toNat) = encodeLower (bytes'.map UInt8.toNat)) :
    bytes = bytes' := by
  have hsmall : ∀ bytes : List UInt8, ∀ b ∈ bytes.map UInt8.toNat, b < 256 := by
    intro bytes b hb
    obtain ⟨c, _, rfl⟩ := List.mem_map.mp hb
    exact c.toNat_lt
  have hbytes : bytes.map UInt8.toNat = bytes'.map UInt8.toNat := by
    apply Option.some.inj
    rw [← decode_encodeLower (hsmall bytes), h, decode_encodeLower (hsmall bytes')]
  exact (List.map_injective_iff.mpr fun _ _ => UInt8.toNat_inj.mp) hbytes

theorem eq_of_dropWhile_eq {s t : Text} (hlen : s.length = t.length)
    (h : s.dropWhile (· == '0') = t.dropWhile (· == '0')) : s = t := by
  have hzeros : ∀ u : Text, u = List.replicate (u.length - (u.dropWhile (· == '0')).length) '0' ++
      u.dropWhile (· == '0') := by
    intro u
    have hsplit : u.takeWhile (· == '0') ++ u.dropWhile (· == '0') = u :=
      List.takeWhile_append_dropWhile
    have hcount := congrArg List.length hsplit
    rw [List.length_append] at hcount
    have htake : u.takeWhile (· == '0') =
        List.replicate (u.length - (u.dropWhile (· == '0')).length) '0' := by
      apply List.eq_replicate_iff.mpr
      refine ⟨by omega, fun c hc => ?_⟩
      simpa using List.mem_takeWhile_imp hc
    rw [← htake, hsplit]
  rw [hzeros s, hzeros t, h, hlen]

theorem isHex_size {c : Char} (h : isHex c) : c.utf8Size = 1 := by
  have hrange := isHex_iff.mp h
  rw [Char.utf8Size_eq_one_iff, UInt32.le_iff_toNat_le, Char.toNat_val]
  show c.toNat ≤ 127
  omega

theorem len_of_isHex {s : Text} (h : ∀ c ∈ s, isHex c) : Text.len s = s.length := by
  induction s with
  | nil => rfl
  | cons c s ih =>
    obtain ⟨hc, hs⟩ := List.forall_mem_cons.mp h
    rw [Text.len_cons, isHex_size hc, ih hs, List.length_cons, Nat.add_comm]

theorem value_dropWhile (s : Text) : value (s.dropWhile (· == '0')) = value s := by
  induction s with
  | nil => rfl
  | cons c s ih =>
    rw [List.dropWhile_cons]
    split
    · rename_i hc
      obtain rfl := beq_iff_eq.mp hc
      rw [ih]
      exact (value_replicate_zero 1 s).symm
    · rfl

end MoveTools.Hex
