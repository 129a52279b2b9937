import MoveTools.Library.Attempt
import MoveTools.Syntax.Ast
import MoveTools.Library.Text

namespace MoveTools.Dove
open Syntax

/-- The tokens that are asked for. All others are `Other`. -/
inductive Tok where
  | IdentifierValue | Less | Greater | Comma | LParen | RParen | LBracket | RBracket | Other
  deriving DecidableEq, Repr

structure Token where
  tok : Tok
  content : Text
  deriving DecidableEq, Repr

/-- Move's lexer: it stands at the first of the tokens that are left. Behind the last one the text
may go on with something that is no token. -/
structure Lexer where
  tokens : List Token
  failure : Option String
  deriving DecidableEq, Repr

/-- What of Move's lexer and parser is called. A number is parsed from where the lexer stands, and
the lexer moves on in any case. -/
structure MoveParser where
  tokens : Text → List Token
  failure : Text → Option String
  parseType : Lexer → Except String (Typ × Lexer)
  parseNum : Lexer → Except String ℕ × Lexer

namespace Lexer

def standing (tokens : List Token) (failure : Option String) : Except String Lexer :=
  match tokens, failure with
  | [], some e => .error e
  | tokens, failure => .ok ⟨tokens, failure⟩

/-- `Lexer::new` and the first `advance`. -/
def start (p : MoveParser) (text : Text) : Except String Lexer :=
  standing (p.tokens text) (p.failure text)

def advance (l : Lexer) : Except String Lexer := standing l.tokens.tail l.failure

/-- `none` is `Tok::EOF`. -/
def peek (l : Lexer) : Option Tok := l.tokens.head?.map Token.tok

def content (l : Lexer) : Text := (l.tokens.head?.map Token.content).getD []

variable {l l' : Lexer} {t : Token} {ts : List Token} {failure : Option String}

@[simp] theorem peek_cons : peek ⟨t :: ts, failure⟩ = some t.tok := rfl

@[simp] theorem peek_nil : peek ⟨[], failure⟩ = none := rfl

@[simp] theorem content_cons : content ⟨t :: ts, failure⟩ = t.content := rfl

theorem standing_ok (h : standing ts failure = .ok l) : l = ⟨ts, failure⟩ := by
  cases ts with
  | cons t ts =>
    cases h
    rfl
  | nil =>
    cases failure with
    | none =>
      cases h
      rfl
    | some e => cases h

theorem standing_none (ts : List Token) : standing ts none = .ok ⟨ts, none⟩ := by
  cases ts <;> rfl

theorem standing_append (ts : List Token) (t : Token) (after : List Token)
    (failure : Option String) :
    standing (ts ++ t :: after) failure = .ok ⟨ts ++ t :: after, failure⟩ := by
  cases ts <;> rfl

theorem standing_cases (ts : List Token) (failure : Option String) :
    (∃ e, failure = some e ∧ standing ts failure = .error e) ∨
      standing ts failure = .ok ⟨ts, failure⟩ := by
  cases ts with
  | cons t ts => exact .inr rfl
  | nil =>
    cases failure with
    | none => exact .inr rfl
    | some e => exact .inl ⟨e, rfl, rfl⟩

theorem standing_error {e : String} (h : standing ts failure = .error e) : ts = [] := by
  cases ts with
  | cons t ts => cases h
  | nil => rfl

theorem advance_ok (h : l.advance = .ok l') : l' = ⟨l.tokens.tail, l.failure⟩ := standing_ok h

theorem advance_lt (hpeek : l.peek ≠ none) (h : l.advance = .ok l') :
    l'.tokens.length < l.tokens.length := by
  obtain ⟨tokens, failure⟩ := l
  rw [advance_ok h]
  cases tokens with
  | nil => exact absurd rfl hpeek
  | cons t ts => exact Nat.lt_succ_self _

end Lexer

/-- A type has at least one token. -/
def MoveParser.Documented (p : MoveParser) : Prop :=
  ∀ {l ty l'}, p.parseType l = .ok (ty, l') → l'.tokens.length < l.tokens.length

end MoveTools.Dove
