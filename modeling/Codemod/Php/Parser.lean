import Codemod.Php.Token

/-!
Reading a token list from the front. A parser is a step on a cursor that may refuse; the first
refusal is the answer. Repetition is bounded by the tokens left, since every round takes one.
-/

namespace Codemod.Php

inductive ParseError where
  /-- None of the expected kinds; with none expected, nothing could begin with this token. -/
  | unexpected (expected : List TokenKind) (found : TokenKind) (offset : Nat)
  | endOfFile (offset : Nat)
  | unclosedString (double : Bool) (offset : Nat)
  | invalidText (message : String) (offset : Nat)
  /-- The reading was given too few steps. -/
  | exhausted (offset : Nat)
deriving DecidableEq, Repr

namespace ParseError

def quoted (kind : TokenKind) : String :=
  "\x60" ++ kind.label ++ "\x60"

def message : ParseError → String
  | .unexpected [] found _ => s!"Unexpected token {quoted found}"
  | .unexpected expected found _ =>
      let kinds := String.intercalate ", " (expected.map quoted)
      s!"Expected one of {kinds}, found {quoted found}"
  | .endOfFile _ => "Unexpected end of file"
  | .unclosedString true _ => "Unclosed double-quoted string"
  | .unclosedString false _ => "Unclosed single-quoted string"
  | .invalidText message _ => message
  | .exhausted _ => "Nesting too deep"

def offset : ParseError → Nat
  | .unexpected _ _ offset | .endOfFile offset | .unclosedString _ offset
  | .invalidText _ offset | .exhausted offset => offset

end ParseError

structure Cursor where
  tokens : List Token
  last : Nat := 0

abbrev Parser (α : Type) := StateT Cursor (Except ParseError) α

namespace Parser

/-- The token some places ahead. Looking at text that is no token refuses. -/
def lookAhead? (distance : Nat) : Parser (Option Token) := do
  match (← get).tokens[distance]? with
  | some token =>
      match token.kind with
      | .invalid message => throw (.invalidText message token.span.start)
      | _ => return some token
  | none => return none

def kindAhead? (distance : Nat) : Parser (Option TokenKind) := do
  return (← lookAhead? distance).map Token.kind

def kind? : Parser (Option TokenKind) :=
  kindAhead? 0

def lookAhead (distance : Nat) : Parser Token := do
  match ← lookAhead? distance with
  | some token => return token
  | none => throw (.endOfFile (← get).last)

def kindAhead (distance : Nat) : Parser TokenKind := do
  return (← lookAhead distance).kind

def peek : Parser Token :=
  lookAhead 0

def kind : Parser TokenKind := do
  return (← peek).kind

def next : Parser Token := do
  let token ← peek
  modify fun cursor => { tokens := cursor.tokens.tail, last := token.span.stop }
  return token

def last : Parser Nat := do
  return (← get).last

def unexpected {α : Type} (expected : List TokenKind) (token : Token) : Parser α :=
  throw (.unexpected expected token.kind token.span.start)

def expectOneOf (kinds : List TokenKind) : Parser Token := do
  let token ← peek
  if token.kind ∈ kinds then next else unexpected kinds token

def expect (kind : TokenKind) : Parser Token :=
  expectOneOf [kind]

def isNext (kind : TokenKind) : Parser Bool := do
  return (← kind?) == some kind

def accept (kind : TokenKind) : Parser Bool := do
  if ← isNext kind then
    let _ ← next
    return true
  return false

def exhausted {α : Type} : Parser α := do
  throw (.exhausted (← get).last)

-- As many rounds as there are tokens left, and one more to end.
def rounds : Parser Nat := do
  return (← get).tokens.length + 1

def repeatedFor {α : Type} (item : Parser (Option α)) : Nat → Parser (List α)
  | 0 => exhausted
  | rounds + 1 => do
      match ← item with
      | none => return []
      | some first => return first :: (← repeatedFor item rounds)

def repeated {α : Type} (item : Parser (Option α)) : Parser (List α) := do
  repeatedFor item (← rounds)

def itemsUntil {α : Type} (isEnd : TokenKind → Bool) (item : Parser α) : Parser (List α) :=
  repeated do
    if isEnd (← kind) then return none
    return some (← item)

def separatedFor {α : Type} (isEnd : TokenKind → Bool) (item : Parser α) :
    Nat → Parser (List α × Bool)
  | 0 => exhausted
  | rounds + 1 => do
      if isEnd (← kind) then return ([], false)
      let first ← item
      if ← accept (.symbol ",") then
        let (others, closed) ← separatedFor isEnd item rounds
        return (first :: others, closed)
      return ([first], true)

def separatedClosed {α : Type} (isEnd : TokenKind → Bool) (item : Parser α) :
    Parser (List α × Bool) := do
  separatedFor isEnd item (← rounds)

def separated {α : Type} (isEnd : TokenKind → Bool) (item : Parser α) : Parser (List α) := do
  return (← separatedClosed isEnd item).1

def joinedBy {α : Type} (separator : TokenKind) (item : Parser α) : Parser (List α) := do
  let first ← item
  let others ← repeated do
    if ← accept separator then return some (← item)
    return none
  return first :: others

end Parser

end Codemod.Php
