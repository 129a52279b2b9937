import MoveTools.Dove.CallEnds
import MoveTools.Dove.ScriptArguments

namespace MoveTools.Dove
open Syntax Attempt Compiler

/-! Which argument stands for which value. -/

inductive ValueType where
  | Bool | U8 | U64 | U128 | Address
  | VectorU8 | VectorU64 | VectorU128 | VectorBool | VectorAddress
  deriving DecidableEq, Repr

def ValueType.typ : ValueType → Typ
  | .Bool => .Apply (.Name "bool") []
  | .U8 => .Apply (.Name "u8") []
  | .U64 => .Apply (.Name "u64") []
  | .U128 => .Apply (.Name "u128") []
  | .Address => .Apply (.Name "address") []
  | .VectorU8 => .Apply (.Name "vector") [.Apply (.Name "u8") []]
  | .VectorU64 => .Apply (.Name "vector") [.Apply (.Name "u64") []]
  | .VectorU128 => .Apply (.Name "vector") [.Apply (.Name "u128") []]
  | .VectorBool => .Apply (.Name "vector") [.Apply (.Name "bool") []]
  | .VectorAddress => .Apply (.Name "vector") [.Apply (.Name "address") []]

inductive ParamType where
  | Signer
  | Value (type : ValueType)
  deriving DecidableEq, Repr

def ParamType.typ : ParamType → Typ
  | .Signer => .Ref false (.Apply (.Name "signer") [])
  | .Value type => type.typ

def separated : List Token → Bool
  | [] => true
  | [t] => t.tok != .Comma
  | t :: comma :: ts => t.tok != .Comma && comma.tok == .Comma && !ts.isEmpty && separated ts

section
variable (cr : ArgumentCrates)

/-- A bracketed list of texts of which `P` holds. Only a strict one has its commas in their places
and nothing behind the bracket that closes it. -/
def VectorText {E : Type} (strict : Bool) (P : Text → E → Prop) (s : Text) (es : List E) : Prop :=
  ∃ opening mid closing after, cr.parser.tokens s = opening :: (mid ++ closing :: after) ∧
    opening.tok = .LBracket ∧ closing.tok = .RBracket ∧ (∀ t ∈ mid, t.tok ≠ .RBracket) ∧
    List.Forall₂ (fun t e => P t.content e) (mid.filter (·.tok != .Comma)) es ∧
    (strict = true → separated mid = true ∧ after = [] ∧ cr.parser.failure s = none)

def BoolText (s : Text) (b : Bool) : Prop := s = if b then "true".toList else "false".toList

/-- The ss58 text of a key: in base58 a byte for the network, the key, and two bytes of the hash of
both. -/
def IsSs58 (s : Text) (key : List ℕ) : Prop :=
  ∃ network checksum, cr.ss58.fromBase58 s = some (network :: (key ++ checksum)) ∧
    key.length = 32 ∧ checksum.length = 2 ∧
      checksum = (cr.ss58.blake2b [Ss58.SS58_PREFIX, network :: key]).take 2

/-- An address is written as ss58 text or as a hex literal. -/
inductive AddressText : Text → cr.account.Address → Prop
  | ss58 {s : Text} {key : List ℕ} {a : cr.account.Address} (h : IsSs58 cr s key)
      (ha : cr.account.fromHexLiteral ("0x".toList ++ cr.ss58.encodeUpper key) = some a) :
      AddressText s a
  | literal {s : Text} {a : cr.account.Address} (h : ∀ key, ¬IsSs58 cr s key)
      (ha : cr.account.fromHexLiteral s = some a) : AddressText s a

/-- The value that an argument stands for. -/
def Denotes (strict : Bool) : ValueType → Text → ScriptArg cr.account.Address → Prop
  | .Bool, s, v => ∃ b, BoolText s b ∧ v = .Bool b
  | .U8, s, v => ∃ n, Decimal.IsNumber 8 s n ∧ v = .U8 n
  | .U64, s, v => ∃ n, Decimal.IsNumber 64 s n ∧ v = .U64 n
  | .U128, s, v => ∃ n, Decimal.IsNumber 128 s n ∧ v = .U128 n
  | .Address, s, v => ∃ a, AddressText cr s a ∧ v = .Address a
  | .VectorU8, s, v =>
    if s.contains '[' then ∃ ns, VectorText cr strict (Decimal.IsNumber 8) s ns ∧ v = .VectorU8 ns
    else ∃ bytes, cr.hexDecode s = some bytes ∧ v = .VectorU8 bytes
  | .VectorU64, s, v => ∃ ns, VectorText cr strict (Decimal.IsNumber 64) s ns ∧ v = .VectorU64 ns
  | .VectorU128, s, v => ∃ ns, VectorText cr strict (Decimal.IsNumber 128) s ns ∧ v = .VectorU128 ns
  | .VectorBool, s, v => ∃ bs, VectorText cr strict BoolText s bs ∧ v = .VectorBool bs
  | .VectorAddress, s, v => ∃ as, VectorText cr strict (AddressText cr) s as ∧ v = .VectorAddress as

/-- The arguments, one for each type, stand for the values. There may be more arguments. -/
inductive Fills (D : ValueType → Text → ScriptArg cr.account.Address → Prop) :
    List ValueType → List Text → List (ScriptArg cr.account.Address) → Prop
  | nil (args : List Text) : Fills D [] args []
  | cons {t : ValueType} {ts : List ValueType} {arg : Text} {args : List Text}
      {v : ScriptArg cr.account.Address} {vs : List (ScriptArg cr.account.Address)}
      (h : D t arg v) (hs : Fills D ts args vs) : Fills D (t :: ts) (arg :: args) (v :: vs)

end

def signers (params : List (String × ParamType)) : ℕ := params.countP (·.2 = .Signer)

def valueTypes (params : List (String × ParamType)) : List ValueType :=
  params.filterMap fun x =>
    match x.2 with
    | .Signer => none
    | .Value type => some type

section
variable {cr : ArgumentCrates}

variable {E : Type} {fromStr : Text → Option E} {P : Text → E → Prop}

/-- The elements and commas in front of a bracket that closes. -/
def Listed (P : Text → E → Prop) (ts : List Token) (es : List E) : Prop :=
  ∃ mid closing after, ts = mid ++ closing :: after ∧ closing.tok = .RBracket ∧
    (∀ t ∈ mid, t.tok ≠ .RBracket) ∧
    List.Forall₂ (fun t e => P t.content e) (mid.filter (·.tok != .Comma)) es

theorem listed_nil {es : List E} : ¬Listed P [] es := by
  rintro ⟨mid, closing, after, h, -⟩
  cases mid <;> cases h

theorem listed_closing {t : Token} {ts : List Token} {es : List E} (ht : t.tok = .RBracket) :
    Listed P (t :: ts) es ↔ es = [] := by
  constructor
  · rintro ⟨mid, closing, after, h, -, hmid, hes⟩
    cases mid with
    | nil => exact List.forall₂_nil_left_iff.mp hes
    | cons u mid =>
      obtain ⟨rfl, -⟩ := List.cons.inj h
      exact absurd ht (hmid t (List.mem_cons_self ..))
  · rintro rfl
    exact ⟨[], t, ts, rfl, ht, fun x hx => absurd hx List.not_mem_nil, .nil⟩

theorem listed_comma {t : Token} {ts : List Token} {es : List E} (ht : t.tok = .Comma) :
    Listed P (t :: ts) es ↔ Listed P ts es := by
  constructor
  · rintro ⟨mid, closing, after, h, hclosing, hmid, hes⟩
    cases mid with
    | nil =>
      rw [← (List.cons.inj h).1, ht] at hclosing
      cases hclosing
    | cons u mid =>
      obtain ⟨rfl, rfl⟩ := List.cons.inj h
      rw [List.filter_cons_of_neg (by simp [ht])] at hes
      exact ⟨mid, closing, after, rfl, hclosing, (List.forall_mem_cons.mp hmid).2, hes⟩
  · rintro ⟨mid, closing, after, rfl, hclosing, hmid, hes⟩
    refine ⟨t :: mid, closing, after, rfl, hclosing,
      List.forall_mem_cons.mpr ⟨by simp [ht], hmid⟩, ?_⟩
    rwa [List.filter_cons_of_neg (by simp [ht])]

theorem listed_element {t : Token} {ts : List Token} {es : List E} (hbracket : t.tok ≠ .RBracket)
    (hcomma : t.tok ≠ .Comma) :
    Listed P (t :: ts) es ↔ ∃ e more, P t.content e ∧ Listed P ts more ∧ es = e :: more := by
  constructor
  · rintro ⟨mid, closing, after, h, hclosing, hmid, hes⟩
    cases mid with
    | nil =>
      obtain ⟨rfl, -⟩ := List.cons.inj h
      exact absurd hclosing hbracket
    | cons u mid =>
      obtain ⟨rfl, rfl⟩ := List.cons.inj h
      rw [List.filter_cons_of_pos (by simp [hcomma])] at hes
      obtain ⟨e, more, he, hmore, rfl⟩ := List.forall₂_cons_left_iff.mp hes
      exact ⟨e, more, he,
        ⟨mid, closing, after, rfl, hclosing, (List.forall_mem_cons.mp hmid).2, hmore⟩, rfl⟩
  · rintro ⟨e, more, he, ⟨mid, closing, after, rfl, hclosing, hmid, hmore⟩, rfl⟩
    refine ⟨t :: mid, closing, after, rfl, hclosing,
      List.forall_mem_cons.mpr ⟨hbracket, hmid⟩, ?_⟩
    rw [List.filter_cons_of_pos (by simp [hcomma])]
    exact .cons he hmore

section
variable {tpName : String} {t : Token} {ts : List Token} {failure : Option String} {acc : List E}

theorem elementTurn_closing (ht : t.tok = .RBracket) :
    elementTurn fromStr tpName (⟨t :: ts, failure⟩, acc) = result (.ok (.leave acc)) := by
  rw [elementTurn, Lexer.peek_cons, ht]
  rfl

theorem elementTurn_comma (ht : t.tok = .Comma) :
    elementTurn fromStr tpName (⟨t :: ts, failure⟩, acc) =
      result (Lexer.standing ts failure) >>= fun l => pure (.again (l, acc)) := by
  rw [elementTurn, Lexer.peek_cons, ht]
  rfl

theorem elementTurn_read {e : E} (hbracket : t.tok ≠ .RBracket) (hcomma : t.tok ≠ .Comma)
    (he : fromStr t.content = some e) : elementTurn fromStr tpName (⟨t :: ts, failure⟩, acc) =
      result (Lexer.standing ts failure) >>= fun l => pure (.again (l, acc ++ [e])) := by
  unfold elementTurn
  split
  case h_1 h => exact absurd (Option.some.inj h) hbracket
  case h_2 h => exact absurd (Option.some.inj h) hcomma
  case h_3 h => cases h
  case h_4 =>
    simp only [Lexer.content_cons, he]
    rfl

theorem elementTurn_unread (hbracket : t.tok ≠ .RBracket) (hcomma : t.tok ≠ .Comma)
    (he : fromStr t.content = none) :
    ∃ e, elementTurn fromStr tpName (⟨t :: ts, failure⟩, acc) = result (.error e) := by
  unfold elementTurn
  split
  case h_1 h => exact absurd (Option.some.inj h) hbracket
  case h_2 h => exact absurd (Option.some.inj h) hcomma
  case h_3 h => cases h
  case h_4 =>
    simp only [Lexer.content_cons, he]
    exact ⟨_, rfl⟩

theorem passed_yields {x : Lexer × List E} (hturn : elementTurn fromStr tpName x =
      result (Lexer.standing ts failure) >>= fun l => pure (.again (l, acc)))
    {Q : List E → Prop} (hnil : ts = [] → ∀ es, ¬Q es)
    (h : Yields (fun fuel => loop (elementTurn fromStr tpName) fuel (⟨ts, failure⟩, acc)) Q) :
    Yields (fun fuel => loop (elementTurn fromStr tpName) fuel x) Q := by
  rcases Lexer.standing_cases ts failure with ⟨e, rfl, he⟩ | hok
  · rw [he, error_bind] at hturn
    refine (yields_error hturn).congr fun es => iff_of_false id ?_
    exact hnil (Lexer.standing_error he) es
  · rw [hok, ok_bind] at hturn
    exact yields_again hturn h

end

theorem elements_yield (hP : ∀ s e, fromStr s = some e ↔ P s e) (tpName : String)
    (ts : List Token) (failure : Option String) (acc : List E) :
    Yields (fun fuel => loop (elementTurn fromStr tpName) fuel (⟨ts, failure⟩, acc))
      fun es => ∃ more, Listed P ts more ∧ es = acc ++ more := by
  have hnone : ∀ {ts : List Token} {acc : List E}, ts = [] →
      ∀ es, ¬∃ more, Listed P ts more ∧ es = acc ++ more := by
    rintro _ _ rfl es ⟨more, h, -⟩
    exact listed_nil h
  induction ts generalizing acc with
  | nil =>
    have hturn : elementTurn fromStr tpName (⟨[], failure⟩, acc) =
        result (.error "unexpected end of vector.") := rfl
    exact (yields_error hturn).congr fun es => iff_of_false id (hnone rfl es)
  | cons t ts ih =>
    by_cases hbracket : t.tok = .RBracket
    · refine (yields_leave (elementTurn_closing hbracket)).congr fun es => ?_
      simp only [listed_closing hbracket, exists_eq_left, List.append_nil]
    by_cases hcomma : t.tok = .Comma
    · simp only [listed_comma hcomma]
      exact passed_yields (elementTurn_comma hcomma) hnone (ih acc)
    · simp only [listed_element hbracket hcomma]
      cases he : fromStr t.content with
      | none =>
        obtain ⟨e, hturn⟩ := elementTurn_unread hbracket hcomma he
        refine (yields_error hturn).congr fun es => iff_of_false id ?_
        rintro ⟨_, ⟨e, more, h, -⟩, -⟩
        rw [(hP _ _).mpr h] at he
        cases he
      | some e =>
        -- the element joins those that were read before it
        have hrest := passed_yields (elementTurn_read hbracket hcomma he) hnone (ih (acc ++ [e]))
        refine hrest.congr fun es => ?_
        constructor
        · rintro ⟨more, hmore, rfl⟩
          exact ⟨e :: more, ⟨e, more, (hP _ _).mp he, hmore, rfl⟩, by simp⟩
        · rintro ⟨_, ⟨e', more, he', hmore, rfl⟩, rfl⟩
          rw [(hP _ _).mpr he', Option.some.injEq] at he
          exact ⟨more, hmore, by simp [he]⟩

section
variable {s : Text} {es : List E}

theorem vectorText_nil (h : cr.parser.tokens s = []) : ¬VectorText cr false P s es := by
  rintro ⟨opening, mid, closing, after, htokens, -⟩
  rw [h] at htokens
  cases htokens

theorem vectorText_cons {t : Token} {ts : List Token} (h : cr.parser.tokens s = t :: ts) :
    VectorText cr false P s es ↔ t.tok = .LBracket ∧ Listed P ts es := by
  unfold VectorText
  rw [h]
  constructor
  · rintro ⟨opening, mid, closing, after, htokens, hopening, hclosing, hmid, hes, -⟩
    obtain ⟨rfl, rfl⟩ := List.cons.inj htokens
    exact ⟨hopening, mid, closing, after, rfl, hclosing, hmid, hes⟩
  · rintro ⟨hopening, mid, closing, after, rfl, hclosing, hmid, hes⟩
    exact ⟨t, mid, closing, after, rfl, hopening, hclosing, hmid, hes, fun h => by cases h⟩

end

theorem parseVec_yields (hP : ∀ s e, fromStr s = some e ↔ P s e) (tpName : String) (s : Text) :
    Yields (fun fuel => parseVec cr.parser fromStr tpName fuel s) (VectorText cr false P s) := by
  have hrun : ∀ fuel, parseVec cr.parser fromStr tpName fuel s =
      result (Lexer.start cr.parser s) >>= fun l => if l.peek ≠ some .LBracket then
        throw "Vector in format  [n1, n2, ..., nn] is expected."
      else result l.advance >>= fun l' => loop (elementTurn fromStr tpName) fuel (l', []) :=
    fun _ => rfl
  simp only [hrun, Lexer.start]
  rcases Lexer.standing_cases (cr.parser.tokens s) (cr.parser.failure s) with ⟨e, -, he⟩ | hok
  · simp only [he, error_bind]
    exact (Yields.error e).congr fun es => iff_of_false id (vectorText_nil (Lexer.standing_error he))
  · simp only [hok, ok_bind]
    cases htokens : cr.parser.tokens s with
    | nil => exact (Yields.error _).congr fun es => iff_of_false id (vectorText_nil htokens)
    | cons t ts =>
      by_cases hopening : t.tok = .LBracket
      · have hpeek : ¬Lexer.peek ⟨t :: ts, cr.parser.failure s⟩ ≠ some .LBracket := by
          simp [hopening]
        simp only [if_neg hpeek]
        -- the bracket is passed, which fails where the lexer does
        show Yields (fun fuel => result (Lexer.standing ts (cr.parser.failure s)) >>= _) _
        rcases Lexer.standing_cases ts (cr.parser.failure s) with ⟨e, -, he⟩ | hnext
        · simp only [he, error_bind]
          refine (Yields.error e).congr fun es => iff_of_false id fun h => ?_
          rw [vectorText_cons htokens, Lexer.standing_error he] at h
          exact listed_nil h.2
        · simp only [hnext, ok_bind]
          refine (elements_yield hP tpName ts _ []).congr fun es => ?_
          simp only [vectorText_cons htokens, hopening, true_and, List.nil_append, exists_eq_right']
      · have hpeek : Lexer.peek ⟨t :: ts, cr.parser.failure s⟩ ≠ some .LBracket := by
          simpa using hopening
        simp only [if_pos hpeek]
        refine (Yields.error _).congr fun es => iff_of_false id fun h => ?_
        exact hopening ((vectorText_cons htokens).mp h).1

/-- How an argument is read. Vectors of booleans are not. -/
def readArgument (cr : ArgumentCrates) (t : ValueType) (name : Text) (index fuel : ℕ) (arg : Text) :
    Attempt String (ScriptArg cr.account.Address) :=
  match t with
  | .Bool => readScalar parseBool .Bool name "bool".toList index arg
  | .U8 => readScalar (numberFromStr 8) .U8 name "u8".toList index arg
  | .U64 => readScalar (numberFromStr 64) .U64 name "u64".toList index arg
  | .U128 => readScalar (numberFromStr 128) .U128 name "u128".toList index arg
  | .Address => readAddress cr arg
  | .VectorU8 => readBytes cr fuel arg
  | .VectorU64 => readVec fuel "u64" (fun s => (numberFromStr 64 s).toOption) .VectorU64 arg
  | .VectorU128 => readVec fuel "u128" (fun s => (numberFromStr 128 s).toOption) .VectorU128 arg
  | .VectorBool => throw "Unexpected script parameter: vector<bool>"
  | .VectorAddress => readVec fuel "vector<address>" (addressFromStr cr) .VectorAddress arg

theorem numberFromStr_iff {bits n : ℕ} {s : Text} :
    numberFromStr bits s = .ok n ↔ Decimal.IsNumber bits s n := by
  rw [← Decimal.parse_eq_ok_iff, numberFromStr]
  cases Decimal.parse bits s with
  | error e => exact iff_of_false (fun h => by cases h) fun h => by cases h
  | ok m => exact (Except.ok.injEq m n).to_iff.trans (Except.ok.injEq m n).to_iff.symm

theorem toOption_eq_some_iff {α : Type} {x : Except String α} {a : α} :
    x.toOption = some a ↔ x = .ok a := by
  cases x with
  | error e => exact iff_of_false (fun h => by cases h) fun h => by cases h
  | ok b => exact Option.some_inj.trans (Except.ok.injEq b a).to_iff.symm

theorem numberFromStr_toOption {bits : ℕ} (s : Text) (n : ℕ) :
    (numberFromStr bits s).toOption = some n ↔ Decimal.IsNumber bits s n :=
  toOption_eq_some_iff.trans numberFromStr_iff

theorem parseBool_iff {s : Text} {b : Bool} : parseBool s = .ok b ↔ BoolText s b := by
  unfold BoolText
  rw [← Text.parseBool_eq_some_iff, parseBool]
  cases Text.parseBool s with
  | none => exact iff_of_false (fun h => by cases h) fun h => by cases h
  | some a => exact (Except.ok.injEq a b).to_iff.trans (Option.some.injEq a b).to_iff.symm

theorem readScalar_yields {fromStr : Text → Except String E} {Q : E → Prop} {arg : Text}
    (hQ : ∀ e, fromStr arg = .ok e ↔ Q e) (make : E → ScriptArg cr.account.Address)
    (name tp : Text) (index : ℕ) :
    Yields (fun _ => readScalar fromStr make name tp index arg) fun v =>
      ∃ e, Q e ∧ v = make e := by
  have hread : readScalar fromStr make name tp index arg =
      result (((fromStr arg).mapError (parseErr name tp index arg)).map make) := by
    unfold readScalar
    cases fromStr arg <;> rfl
  rw [hread]
  refine (Yields.const _).congr fun v => ?_
  simp only [← hQ]
  cases fromStr arg with
  | error e =>
    refine iff_of_false (fun h => by cases h) ?_
    rintro ⟨e, h, -⟩
    cases h
  | ok e =>
    constructor
    · rintro ⟨⟩
      exact ⟨e, rfl, rfl⟩
    · rintro ⟨_, ⟨⟩, rfl⟩
      rfl

theorem ss58ToLibra_iff {s l : Text} : Ss58.ss58ToLibra cr.ss58 s = some l ↔
    ∃ key, IsSs58 cr s key ∧ l = "0x".toList ++ cr.ss58.encodeUpper key := by
  constructor
  · intro h
    unfold Ss58.ss58ToLibra at h
    cases hb : cr.ss58.fromBase58 s with
    | none =>
      rw [hb] at h
      cases h
    | some bytes =>
      simp only [hb, Option.ite_none_right_eq_some, Option.some.injEq] at h
      obtain ⟨hlen, hsum, rfl⟩ := h
      obtain ⟨network, rest, rfl⟩ := List.exists_cons_of_length_eq_add_one hlen
      have hrest : rest.length = 34 := Nat.succ.inj hlen
      have hkey : (rest.take 32).length = 32 := by rw [List.length_take, hrest]; rfl
      have hchecksum : (rest.drop 32).length = 2 := by rw [List.length_drop, hrest]
      have htake : (rest.drop 32).take 2 = rest.drop 32 := List.take_of_length_le hchecksum.le
      refine ⟨rest.take 32, ⟨network, rest.drop 32, ?_, hkey, hchecksum, ?_⟩, rfl⟩
      · rw [hb, List.take_append_drop]
      · rw [← htake]
        exact hsum
  · rintro ⟨key, ⟨network, checksum, hb, hkey, hchecksum, hsum⟩, rfl⟩
    have hlen : (network :: (key ++ checksum)).length = Ss58.PUB_KEY_LENGTH + 3 := by
      rw [List.length_cons, List.length_append, hkey, hchecksum]
      rfl
    have hdrop : (network :: (key ++ checksum)).drop (Ss58.PUB_KEY_LENGTH + 1) = checksum :=
      List.drop_left' hkey
    have hfront : (network :: (key ++ checksum)).take (Ss58.PUB_KEY_LENGTH + 1) = network :: key :=
      congrArg (network :: ·) (List.take_left' hkey)
    have htake : ((network :: (key ++ checksum)).drop 1).take Ss58.PUB_KEY_LENGTH = key :=
      List.take_left' hkey
    have hcut : checksum.take 2 = checksum := List.take_of_length_le hchecksum.le
    unfold Ss58.ss58ToLibra
    simp only [hb]
    rw [if_pos hlen, hdrop, hfront, htake, hcut]
    exact if_pos hsum

theorem addressFromStr_iff (s : Text) (a : cr.account.Address) :
    addressFromStr cr s = some a ↔ AddressText cr s a := by
  unfold addressFromStr
  cases hl : Ss58.ss58ToLibra cr.ss58 s with
  | some l =>
    obtain ⟨key, hkey, rfl⟩ := ss58ToLibra_iff.mp hl
    constructor
    · exact .ss58 hkey
    · rintro (⟨hother, ha⟩ | ⟨hnone, -⟩)
      · have hsame := hl.symm.trans (ss58ToLibra_iff.mpr ⟨_, hother, rfl⟩)
        rw [Option.some.inj hsame]
        exact ha
      · exact absurd hkey (hnone key)
  | none =>
    have hnone : ∀ key, ¬IsSs58 cr s key := by
      intro key hkey
      cases hl.symm.trans (ss58ToLibra_iff.mpr ⟨key, hkey, rfl⟩)
    constructor
    · exact .literal hnone
    · rintro (⟨hkey, -⟩ | ⟨-, ha⟩)
      · exact absurd hkey (hnone _)
      · exact ha

theorem readAddress_yields (arg : Text) :
    Yields (fun _ => readAddress cr arg) (Denotes cr false .Address arg) := by
  cases haddr : addressFromStr cr arg with
  | none =>
    have hread : readAddress cr arg = result (.error "invalid address") := by
      rw [readAddress, haddr]
      rfl
    rw [hread]
    refine (Yields.error _).congr fun v => iff_of_false id ?_
    rintro ⟨a, h, -⟩
    cases haddr.symm.trans ((addressFromStr_iff arg a).mpr h)
  | some addr =>
    have hread : readAddress cr arg = result (.ok (.Address addr)) := by
      rw [readAddress, haddr]
      rfl
    rw [hread]
    refine (Yields.value _).congr fun v => ?_
    constructor
    · rintro rfl
      exact ⟨addr, (addressFromStr_iff arg addr).mp haddr, rfl⟩
    · rintro ⟨a, h, rfl⟩
      rw [Option.some.inj (haddr.symm.trans ((addressFromStr_iff arg a).mpr h))]

theorem readVec_yields (hP : ∀ s e, fromStr s = some e ↔ P s e) (tpName : String)
    (make : List E → ScriptArg cr.account.Address) (arg : Text) :
    Yields (fun fuel => readVec fuel tpName fromStr make arg) fun v =>
      ∃ es, VectorText cr false P arg es ∧ v = make es :=
  (parseVec_yields hP tpName arg).bind fun es _ =>
    (Yields.value (make es)).congr fun _ => Iff.rfl

theorem readBytes_yields (arg : Text) :
    Yields (fun fuel => readBytes cr fuel arg) (Denotes cr false .VectorU8 arg) := by
  by_cases hbracket : arg.contains '['
  · have hread : ∀ fuel, readBytes cr fuel arg =
        readVec fuel "u8" (fun s => (numberFromStr 8 s).toOption) .VectorU8 arg :=
      fun _ => if_pos hbracket
    simp only [hread]
    refine (readVec_yields numberFromStr_toOption _ _ arg).congr fun v => ?_
    rw [Denotes, if_pos hbracket]
  · have hdenotes : ∀ v, Denotes cr false .VectorU8 arg v ↔
        ∃ bytes, cr.hexDecode arg = some bytes ∧ v = .VectorU8 bytes := fun v => by
      rw [Denotes, if_neg hbracket]
    cases hhex : cr.hexDecode arg with
    | none =>
      have hread : ∀ fuel, readBytes cr fuel arg = result (.error "invalid hex string") := by
        intro fuel
        unfold readBytes
        rw [if_neg hbracket, hhex]
        rfl
      simp only [hread]
      refine (Yields.error _).congr fun v => iff_of_false id ?_
      rw [hdenotes, hhex]
      rintro ⟨bytes, h, -⟩
      cases h
    | some buffer =>
      have hread : ∀ fuel, readBytes cr fuel arg = result (.ok (.VectorU8 buffer)) := by
        intro fuel
        unfold readBytes
        rw [if_neg hbracket, hhex]
        rfl
      simp only [hread]
      refine (Yields.value _).congr fun v => ?_
      rw [hdenotes, hhex]
      simp

/-- Each argument but a vector of booleans is read as what it stands for. -/
theorem readArgument_yields {t : ValueType} (ht : t ≠ .VectorBool) (name : Text) (index : ℕ)
    (arg : Text) :
    Yields (fun fuel => readArgument cr t name index fuel arg) (Denotes cr false t arg) := by
  cases t
  case VectorBool => exact absurd rfl ht
  case Bool => exact readScalar_yields (fun _ => parseBool_iff) _ name _ index
  case U8 | U64 | U128 => exact readScalar_yields (fun _ => numberFromStr_iff) _ name _ index
  case Address => exact readAddress_yields arg
  case VectorU8 => exact readBytes_yields arg
  case VectorU64 | VectorU128 => exact readVec_yields numberFromStr_toOption _ _ arg
  case VectorAddress => exact readVec_yields addressFromStr_iff _ _ arg

end
end MoveTools.Dove
