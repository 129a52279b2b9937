import MoveTools.Library.Decimal
import MoveTools.Library.Words
import MoveTools.Executor.Execution

namespace MoveTools.Executor
open Text

/-- What is called of the `libra` crates: `AccountAddress::from_hex_literal`, the names of status
codes, and what builds identifiers. -/
structure MetaCrates where
  fromHexLiteral : Text → Option AccountAddress
  statusCodes : Text → Option ℕ
  ids : Identifiers

inductive Directive where
  | Signers | Balance | Price | CurrentTime | AbortsWith | Status | Block | DryRun
  deriving DecidableEq, Repr

/-- The keys that are matched. -/
def directiveOf (key : Text) : Option Directive :=
  if key = "signers".toList then some .Signers
  else if key = "balance".toList then some .Balance
  else if key = "price".toList then some .Price
  else if key = "current_time".toList then some .CurrentTime
  else if key = "aborts_with".toList then some .AbortsWith
  else if key = "status".toList then some .Status
  else if key = "block".toList then some .Block
  else if key = "dry_run".toList then some .DryRun
  else none

section
variable (cr : MetaCrates)

/-! `none` stands for a panic. -/

def splitSigners (s : Text) : Option (List AccountAddress) :=
  (s.splitOn ',').mapM fun addr => cr.fromHexLiteral (trim addr)

def parseNumber (bits : ℕ) (s : Text) : Option ℕ := (Decimal.parse bits s).toOption

/-- A comment without an address, a coin and a balance is reported. -/
def applyBalance (self : ExecutionMeta) (val : Text) : Option ExecutionMeta :=
  if !val.contains ' ' then some self
  else do
    let (address, balance) ← splitAround val " ".toList
    if !balance.contains ' ' then some self
    else do
      let (coin, num) ← splitAround balance " ".toList
      let address ← cr.fromHexLiteral address
      let num ← parseNumber 128 num
      pure { self with accountsBalance := self.accountsBalance ++ [(address, coin, num)] }

def applyPrice (self : ExecutionMeta) (val : Text) : Option ExecutionMeta :=
  if !val.contains ' ' then some self
  else do
    let (tickers, value) ← splitAround val " ".toList
    if !tickers.contains '_' then some self
    else do
      let (tickerLeft, tickerRight) ← splitAround tickers "_".toList
      let priceStructTag ← oracleMetadata cr.ids tickerLeft tickerRight
      let value ← parseNumber 128 value
      pure { self with oraclePrices := self.oraclePrices ++ [(priceStructTag, value)] }

def applyDirective (self : ExecutionMeta) (directive : Directive) (val : Text) :
    Option ExecutionMeta :=
  match directive with
  | .Signers => (splitSigners cr val).map fun signers => { self with signers }
  | .Balance => applyBalance cr self val
  | .Price => applyPrice cr self val
  | .CurrentTime => (parseNumber 64 val).map fun n => { self with currentTime := some n }
  | .AbortsWith => (parseNumber 64 val).map fun n => { self with abortsWith := some n }
  | .Status => some { self with status := cr.statusCodes val }
  | .Block => (parseNumber 64 val).map fun n => { self with block := some n }
  | .DryRun => (parseBool val).map fun b => { self with dryRun := b }

def applyMetaComment (self : ExecutionMeta) (comment : Text) : Option ExecutionMeta :=
  if !comment.contains ':' then some self
  else do
    let (key, val) ← splitAround comment ":".toList
    match directiveOf key with
    | some directive => applyDirective cr self directive val
    | none => some self

/-- A name that is made the name of a coin's type. -/
def CurrencyName (name : Text) : Prop :=
  cr.ids.toUppercase name = XFI_MODULE ∨ cr.ids.isValid (cr.ids.toUppercase name)

def IsBalance (val : Text) : Prop :=
  ∃ address balance coin num, splitAround val " ".toList = some (address, balance) ∧
    splitAround balance " ".toList = some (coin, num) ∧ (cr.fromHexLiteral address).isSome ∧
    CurrencyName cr coin ∧ ∃ n, Decimal.IsNumber 128 num n

def IsPrice (val : Text) : Prop :=
  ∃ tickers value left right, splitAround val " ".toList = some (tickers, value) ∧
    splitAround tickers "_".toList = some (left, right) ∧ CurrencyName cr left ∧
    CurrencyName cr right ∧ ∃ n, Decimal.IsNumber 128 value n

def WellFormed : Directive → Text → Prop
  | .Signers, val => ∀ addr ∈ val.splitOn ',', (cr.fromHexLiteral (trim addr)).isSome
  | .Balance, val => IsBalance cr val
  | .Price, val => IsPrice cr val
  | .CurrentTime, val | .AbortsWith, val | .Block, val => ∃ n, Decimal.IsNumber 64 val n
  | .Status, val => (cr.statusCodes val).isSome
  | .DryRun, val => val = "true".toList ∨ val = "false".toList

/-- What is passed over: values that lack a part, and unknown codes where there has been none. -/
def PassedOver (self : ExecutionMeta) : Directive → Text → Prop
  | .Balance, val => ¬val.contains ' ' ∨ ∃ address balance,
      splitAround val " ".toList = some (address, balance) ∧ ¬balance.contains ' '
  | .Price, val => ¬val.contains ' ' ∨ ∃ tickers value,
      splitAround val " ".toList = some (tickers, value) ∧ ¬tickers.contains '_'
  | .Status, _ => self.status = none
  | _, _ => False

/-- No panic, and no change unless the value is well formed. -/
def Keeps (self : ExecutionMeta) (wellFormed : Prop) (result : Option ExecutionMeta) : Prop :=
  ∃ m, result = some m ∧ (¬wellFormed → m = self)

/-- The comment has the key of the directive. -/
def Directs (comment : Text) (directive : Directive) (val : Text) : Prop :=
  ∃ key, splitAround comment ":".toList = some (key, val) ∧ directiveOf key = some directive

end

section
variable {cr : MetaCrates} {self : ExecutionMeta} {val : Text} {p : Prop}

theorem keeps_self : Keeps self p (some self) := ⟨self, rfl, fun _ => rfl⟩

theorem not_keeps_none : ¬Keeps self p none := by
  rintro ⟨m, h, -⟩
  cases h

theorem keeps_changed {m : ExecutionMeta} (h : m ≠ self) : Keeps self p (some m) ↔ p := by
  constructor
  · rintro ⟨_, ⟨⟩, hself⟩
    by_contra hp
    exact h (hself hp)
  · intro hp
    exact ⟨m, rfl, fun hno => absurd hp hno⟩

theorem keeps_map {α : Type} {x : Option α} {f : α → ExecutionMeta} (h : x.isSome ↔ p) :
    Keeps self p (x.map f) ↔ p := by
  cases x with
  | none => exact iff_of_false not_keeps_none fun hp => by cases h.mpr hp
  | some a => exact iff_of_true ⟨f a, rfl, fun hno => absurd (h.mp rfl) hno⟩ (h.mp rfl)

theorem parseNumber_isSome {bits : ℕ} {s : Text} :
    (parseNumber bits s).isSome ↔ ∃ n, Decimal.IsNumber bits s n := by
  simp only [← Decimal.parse_eq_ok_iff, parseNumber]
  cases Decimal.parse bits s with
  | error e => exact iff_of_false (fun h => by cases h) fun ⟨n, h⟩ => by cases h
  | ok n => exact iff_of_true rfl ⟨n, rfl⟩

theorem parseBool_isSome {s : Text} :
    (parseBool s).isSome ↔ s = "true".toList ∨ s = "false".toList := by
  rw [Option.isSome_iff_exists]
  simp only [parseBool_eq_some_iff, Bool.exists_bool, or_comm, if_true, Bool.false_eq_true,
    if_false]

theorem mapM_isSome {α β : Type} {f : α → Option β} {l : List α} :
    (l.mapM f).isSome ↔ ∀ a ∈ l, (f a).isSome := by
  induction l with
  | nil => exact iff_of_true rfl fun a ha => absurd ha List.not_mem_nil
  | cons a l ih =>
    rw [List.mapM_cons, List.forall_mem_cons, ← ih]
    cases f a with
    | none => exact iff_of_false (fun h => by cases h) fun h => by cases h.1
    | some b => cases l.mapM f <;> simp

theorem currencyType_isSome {name : Text} :
    (currencyType cr.ids name).isSome ↔ CurrencyName cr name := by
  unfold currencyType CurrencyName
  dsimp only
  split
  case isTrue h => exact iff_of_true rfl (.inl h)
  case isFalse hxfi =>
    split
    case isTrue h => exact iff_of_true rfl (.inr h)
    case isFalse h => exact iff_of_false (fun h => by cases h) (not_or.mpr ⟨hxfi, h⟩)

theorem oracleMetadata_isSome {left right : Text} :
    (oracleMetadata cr.ids left right).isSome ↔ CurrencyName cr left ∧ CurrencyName cr right := by
  rw [← currencyType_isSome, ← currencyType_isSome, oracleMetadata]
  cases currencyType cr.ids left with
  | none => exact iff_of_false (fun h => by cases h) fun h => by cases h.1
  | some t => cases currencyType cr.ids right <;> simp

/-- A value is passed over without the character between its parts; what its parts `k` gives is
passed over for a reason `r` of theirs. -/
theorem keeps_split {c : Char} {k : Text × Text → Option ExecutionMeta} {r : Text × Text → Prop}
    (hk : ∀ parts, splitAround val [c] = some parts → (Keeps self p (k parts) ↔ p ∨ r parts)) :
    Keeps self p (if !val.contains c then some self else splitAround val [c] >>= k) ↔
      p ∨ ¬val.contains c ∨ ∃ parts, splitAround val [c] = some parts ∧ r parts := by
  cases hval : val.contains c with
  | false => exact iff_of_true keeps_self (.inr (.inl (by simp)))
  | true =>
    obtain ⟨parts, hparts⟩ := splitAround_char hval
    show Keeps self p (splitAround val [c] >>= k) ↔ _
    simp only [hparts, Option.bind_eq_bind, Option.bind_some, hk parts hparts, not_true_eq_false,
      false_or, Option.some.injEq, exists_eq_left']

theorem applyBalance_parts {address balance coin num : Text}
    (hparts : splitAround val " ".toList = some (address, balance))
    (hcoin : splitAround balance " ".toList = some (coin, num)) :
    Keeps self (IsBalance cr val) (do
      let address ← cr.fromHexLiteral address
      let num ← parseNumber 128 num
      pure { self with accountsBalance := self.accountsBalance ++ [(address, coin, num)] }) ↔
    IsBalance cr val := by
  have hbalance : IsBalance cr val ↔ (cr.fromHexLiteral address).isSome ∧ CurrencyName cr coin ∧
      ∃ n, Decimal.IsNumber 128 num n := by
    constructor
    · rintro ⟨_, _, _, _, hparts', hcoin', h⟩
      cases hparts.symm.trans hparts'
      cases hcoin.symm.trans hcoin'
      exact h
    · intro h
      exact ⟨_, _, _, _, hparts, hcoin, h⟩
  rw [hbalance, ← parseNumber_isSome]
  cases cr.fromHexLiteral address with
  | none => exact iff_of_false not_keeps_none fun h => by cases h.1
  | some addr =>
    cases parseNumber 128 num with
    | none => exact iff_of_false not_keeps_none fun h => by cases h.2.2
    | some n =>
      refine keeps_changed fun h => ?_
      have hlength := congrArg (fun m => m.accountsBalance.length) h
      simp at hlength

theorem applyBalance_keeps_iff : Keeps self (IsBalance cr val) (applyBalance cr self val) ↔
    IsBalance cr val ∨ PassedOver self .Balance val := by
  refine (keeps_split (r := fun parts => ¬parts.2.contains ' ') fun parts hparts => ?_).trans
    (by rw [Prod.exists]; rfl)
  obtain ⟨address, balance⟩ := parts
  refine (keeps_split (r := fun _ => False) fun parts hcoin => ?_).trans (by simp)
  exact (applyBalance_parts hparts hcoin).trans (or_iff_left id).symm

theorem applyPrice_parts {tickers value left right : Text}
    (hparts : splitAround val " ".toList = some (tickers, value))
    (htickers : splitAround tickers "_".toList = some (left, right)) :
    Keeps self (IsPrice cr val) (do
      let priceStructTag ← oracleMetadata cr.ids left right
      let value ← parseNumber 128 value
      pure { self with oraclePrices := self.oraclePrices ++ [(priceStructTag, value)] }) ↔
    IsPrice cr val := by
  have hprice : IsPrice cr val ↔ (CurrencyName cr left ∧ CurrencyName cr right) ∧
      ∃ n, Decimal.IsNumber 128 value n := by
    constructor
    · rintro ⟨_, _, _, _, hparts', htickers', hleft, hright, hn⟩
      cases hparts.symm.trans hparts'
      cases htickers.symm.trans htickers'
      exact ⟨⟨hleft, hright⟩, hn⟩
    · rintro ⟨⟨hleft, hright⟩, hn⟩
      exact ⟨_, _, _, _, hparts, htickers, hleft, hright, hn⟩
  rw [hprice, ← parseNumber_isSome, ← oracleMetadata_isSome]
  cases oracleMetadata cr.ids left right with
  | none => exact iff_of_false not_keeps_none fun h => by cases h.1
  | some tag =>
    cases parseNumber 128 value with
    | none => exact iff_of_false not_keeps_none fun h => by cases h.2
    | some n => exact iff_of_true ⟨_, rfl, fun hno => absurd ⟨rfl, rfl⟩ hno⟩ ⟨rfl, rfl⟩

theorem applyPrice_keeps_iff : Keeps self (IsPrice cr val) (applyPrice cr self val) ↔
    IsPrice cr val ∨ PassedOver self .Price val := by
  refine (keeps_split (r := fun parts => ¬parts.1.contains '_') fun parts hparts => ?_).trans
    (by rw [Prod.exists]; rfl)
  obtain ⟨tickers, value⟩ := parts
  refine (keeps_split (r := fun _ => False) fun parts hnames => ?_).trans (by simp)
  exact (applyPrice_parts hparts hnames).trans (or_iff_left id).symm

theorem status_keeps_iff : Keeps self (cr.statusCodes val).isSome
      (some { self with status := cr.statusCodes val }) ↔
    (cr.statusCodes val).isSome ∨ self.status = none := by
  cases hstatus : cr.statusCodes val with
  | some code => exact iff_of_true ⟨_, rfl, fun hno => absurd rfl hno⟩ (.inl rfl)
  | none =>
    rw [or_iff_right (by simp)]
    constructor
    · rintro ⟨m, ⟨⟩, hself⟩
      exact (congrArg ExecutionMeta.status (hself (by simp))).symm
    · intro hnone
      refine ⟨_, rfl, fun _ => ?_⟩
      rw [← hnone]

theorem applyDirective_keeps_iff (directive : Directive) :
    Keeps self (WellFormed cr directive val) (applyDirective cr self directive val) ↔
      WellFormed cr directive val ∨ PassedOver self directive val := by
  cases directive
  case Balance => exact applyBalance_keeps_iff
  case Price => exact applyPrice_keeps_iff
  case Status => exact status_keeps_iff
  case Signers => exact (keeps_map mapM_isSome).trans (or_iff_left id).symm
  case CurrentTime | AbortsWith | Block =>
    exact (keeps_map parseNumber_isSome).trans (or_iff_left id).symm
  case DryRun => exact (keeps_map parseBool_isSome).trans (or_iff_left id).symm

section
variable {comment key : Text} (hparts : splitAround comment ":".toList = some (key, val))
include hparts

theorem applyMetaComment_eq : applyMetaComment cr self comment =
    match directiveOf key with
    | some directive => applyDirective cr self directive val
    | none => some self := by
  have hcolon : comment.contains ':' := contains_of_splitAround hparts
  unfold applyMetaComment
  rw [hcolon, hparts]
  rfl

theorem not_directs (hkey : directiveOf key = none) (directive : Directive) (val' : Text) :
    ¬Directs comment directive val' := by
  rintro ⟨key', hparts', hkey'⟩
  cases hparts.symm.trans hparts'
  cases hkey.symm.trans hkey'

theorem forall_directs_some {directive : Directive} (hkey : directiveOf key = some directive)
    {P : Directive → Text → Prop} :
    (∀ directive val, Directs comment directive val → P directive val) ↔ P directive val := by
  constructor
  · exact fun h => h directive val ⟨key, hparts, hkey⟩
  · rintro h directive' val' ⟨key', hparts', hkey'⟩
    cases hparts.symm.trans hparts'
    cases hkey.symm.trans hkey'
    exact h

end
end

/-- A comment is applied, or passed over when its value is malformed, just where the value is well
formed or lacks a part that is asked for. -/
theorem meta_comment_kept_iff (cr : MetaCrates) (self : ExecutionMeta) (comment : Text) :
    (∃ m, applyMetaComment cr self comment = some m ∧ ∀ directive val,
        Directs comment directive val → ¬WellFormed cr directive val → m = self) ↔
    ∀ directive val, Directs comment directive val →
      WellFormed cr directive val ∨ PassedOver self directive val := by
  have hnone : (∀ directive val, ¬Directs comment directive val) →
      applyMetaComment cr self comment = some self →
      ((∃ m, applyMetaComment cr self comment = some m ∧ ∀ directive val,
        Directs comment directive val → ¬WellFormed cr directive val → m = self) ↔
      ∀ directive val, Directs comment directive val →
        WellFormed cr directive val ∨ PassedOver self directive val) :=
    fun hno hself => iff_of_true ⟨self, hself, fun _ _ _ _ => rfl⟩
      fun directive val h => absurd h (hno directive val)
  cases hcolon : comment.contains ':' with
  | false =>
    refine hnone ?_ ?_
    · rintro directive val ⟨key, hparts, -⟩
      exact Bool.eq_false_iff.mp hcolon (contains_of_splitAround hparts)
    · unfold applyMetaComment
      rw [hcolon]
      rfl
  | true =>
    obtain ⟨⟨key, val⟩, hparts⟩ := splitAround_char hcolon
    cases hkey : directiveOf key with
    | none =>
      refine hnone (not_directs hparts hkey) ?_
      rw [applyMetaComment_eq hparts, hkey]
    | some directive =>
      have hrun : applyMetaComment cr self comment = applyDirective cr self directive val := by
        rw [applyMetaComment_eq hparts, hkey]
      simp only [forall_directs_some hparts hkey, hrun]
      exact applyDirective_keeps_iff directive

/-- The value is no number. -/
theorem soon_panics :
    ¬∃ (cr : MetaCrates) (m : ExecutionMeta),
      applyMetaComment cr {} "current_time: soon".toList = some m := by
  rintro ⟨cr, m, h⟩
  have hrun : applyMetaComment cr {} "current_time: soon".toList = none := rfl
  cases hrun.symm.trans h

end MoveTools.Executor
