import MoveTools.Dove.TypeQueries

namespace MoveTools.Dove
open Syntax Attempt Index Compiler
open Executor (TypeTag)

def invalidCall (what : String) : String :=
  "Invalid call script format." ++ what ++ ". Use pattern 'script_name<comma separated type " ++
    "parameters>(comma separated parameters WITHOUT signers)'"

structure Call where
  scriptName : Text
  typeParameters : List TypeTag
  arguments : List Text

section
variable (ids : Identifiers) (p : MoveParser)

/-- The loop over the type parameters ends at `>`. -/
def typeParameterTurn (x : Lexer × List TypeTag) :
    Attempt String (Turn (Lexer × List TypeTag) (Lexer × List TypeTag)) :=
  if x.1.peek = some .Greater then pure (.leave x)
  else if x.1.peek = none then throw (invalidCall "Invalid type parameters format.")
  else if x.1.peek = some .Comma then do
    let lexer ← result x.1.advance
    pure (.again (lexer, x.2))
  else do
    let (t, lexer) ← parseTypeParams ids p x.1
    pure (.again (lexer, x.2 ++ [t]))

def callTypes (fuel : ℕ) (lexer : Lexer) : Attempt String (Lexer × List TypeTag) :=
  if lexer.peek = some .Less then do
    let lexer ← result lexer.advance
    let (lexer, typeParameters) ← loop (typeParameterTurn ids p) fuel (lexer, [])
    let lexer ← result lexer.advance
    pure (lexer, typeParameters)
  else pure (lexer, [])

/-- `while lexer.peek() != stop { token.push_str(lexer.content()); lexer.advance()? }` -/
def tokenTurn (stop : Option Tok → Bool) (x : Lexer × Text) :
    Attempt String (Turn (Lexer × Text) (Lexer × Text)) :=
  if stop x.1.peek then pure (.leave x)
  else do
    let lexer ← result x.1.advance
    pure (.again (lexer, x.2 ++ x.1.content))

/-- The loop over the arguments ends at `)`, also where an argument has been ended by it. -/
def argumentTurn (fuel : ℕ) (x : Lexer × List Text) :
    Attempt String (Turn (Lexer × List Text) (List Text)) :=
  if x.1.peek = some .RParen then pure (.leave x.2)
  else if x.1.peek = none then throw (invalidCall "Invalid arguments format.")
  else if x.1.peek = some .Comma then do
    let lexer ← result x.1.advance
    pure (.again (lexer, x.2))
  else if x.1.peek = some .LBracket then do
    let lexer ← result x.1.advance
    let (lexer, token) ← loop (tokenTurn (· == some .RBracket)) fuel (lexer, x.1.content)
    let arguments := x.2 ++ [token ++ lexer.content]
    let lexer ← result lexer.advance
    pure (.again (lexer, arguments))
  else do
    let lexer ← result x.1.advance
    let (lexer, token) ←
      loop (tokenTurn fun t => t == some .Comma || t == some .RParen) fuel (lexer, x.1.content)
    let arguments := x.2 ++ [token]
    if lexer.peek = some .RParen then pure (.leave arguments)
    else do
      let lexer ← result lexer.advance
      pure (.again (lexer, arguments))

def callName (lexer : Lexer) : Attempt String (Lexer × Text) :=
  if lexer.peek ≠ some .IdentifierValue then throw (invalidCall "Expected function identifier")
  else do
    let next ← result lexer.advance
    pure (next, lexer.content)

def callArguments (fuel : ℕ) (lexer : Lexer) : Attempt String (List Text) :=
  if lexer.peek ≠ some .LParen then
    throw (invalidCall "Invalid script arguments format.. Left paren '(' is expected")
  else do
    let lexer ← result lexer.advance
    loop (argumentTurn fuel) fuel (lexer, [])

def parseCall (cr : Ss58.Crates) (fuel : ℕ) (call : Text) : Attempt String Call := do
  let call := (Ss58.replaceSs58Addresses cr call {}).1
  let lexer ← result (Lexer.start p call)
  let (lexer, scriptName) ← callName lexer
  let (lexer, typeParameters) ← callTypes ids p fuel lexer
  let arguments ← callArguments fuel lexer
  pure ⟨scriptName, typeParameters, arguments⟩

end

section
variable {E : Type} (p : MoveParser) (fromStr : Text → Option E) (tpName : String)

def elementTurn (x : Lexer × List E) : Attempt String (Turn (Lexer × List E) (List E)) :=
  match x.1.peek with
  | some .RBracket => pure (.leave x.2)
  | some .Comma => do
    let lexer ← result x.1.advance
    pure (.again (lexer, x.2))
  | none => throw "unexpected end of vector."
  | _ =>
    match fromStr x.1.content with
    | none => throw ("Failed to parse vector element. " ++ tpName ++
        " type is expected. Actual:'" ++ String.ofList x.1.content ++ "'")
    | some element => do
      let lexer ← result x.1.advance
      pure (.again (lexer, x.2 ++ [element]))

def parseVec (fuel : ℕ) (tkn : Text) : Attempt String (List E) := do
  let lexer ← result (Lexer.start p tkn)
  if lexer.peek ≠ some .LBracket then
    throw "Vector in format  [n1, n2, ..., nn] is expected."
  else do
    let lexer ← result lexer.advance
    loop (elementTurn fromStr tpName) fuel (lexer, [])

end
end MoveTools.Dove
