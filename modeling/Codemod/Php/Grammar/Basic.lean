import Codemod.Php.Parser
import Codemod.Php.Program

/-!
The parts of the grammar that expressions and statements share: names, types, variables,
arguments, attributes and terminators. Rules that call each other do so through a `Grammar`, so
each family of rules can be written on its own.
-/

namespace Codemod.Php

/-- How tightly an operator binds; zero is an expression without limits. -/
abbrev Level := Nat

structure Grammar where
  expression : Level → Parser Expr
  statement : Parser Statement
  hint : Parser Hint

namespace Grammar

open Codemod.Php.Parser

def symbolIs (spelling : String) (kind : TokenKind) : Bool :=
  kind == .symbol spelling

def isKeyword (words : List String) : TokenKind → Bool
  | .keyword word => words.contains word
  | _ => false

def full (g : Grammar) : Parser Expr :=
  g.expression 0

-- From the start given to the end of the last token taken.
def spanFrom (start : Nat) : Parser Span := do
  return ⟨start, ← last⟩

def localName : Parser Token := do
  let token ← peek
  if token.kind.isIdentifier then next else unexpected [.identifier] token

def name : Parser Token := do
  match ← kind with
  | .qualifiedIdentifier | .fullyQualifiedIdentifier => next
  | _ => localName

def startsHint : TokenKind → Bool
  | .identifier | .qualifiedIdentifier | .fullyQualifiedIdentifier => true
  | .symbol spelling => spelling == "?" || spelling == "("
  | .keyword word =>
      ["array", "callable", "null", "true", "false", "static", "self", "parent", "enum", "from",
        "list"].contains word
  | _ => false

def hintStarts : List TokenKind :=
  [.symbol "?", .symbol "(", .keyword "array", .keyword "callable", .keyword "null",
    .keyword "true", .keyword "false", .keyword "static", .keyword "self", .keyword "parent",
    .keyword "enum", .keyword "from", .identifier, .qualifiedIdentifier,
    .fullyQualifiedIdentifier]

def joinsTypes : Parser Bool := do
  match ← kindAhead? 1 with
  | some .variable | some (.symbol "...") | some (.symbol "&") => return false
  | _ => return true

-- One type and, to its right, everything joined to it.
def hintRule (g : Grammar) : Parser Hint := do
  let token ← peek
  unless startsHint token.kind do
    unexpected hintStarts token
  let _ ← next
  let first ← match token.kind with
    | .symbol "?" => do
        let inner ← g.hint
        pure (Hint.wrapped ⟨token.span.start, inner.span.stop⟩ inner)
    | .symbol "(" => do
        let inner ← g.hint
        let closing ← expect (.symbol ")")
        pure (Hint.wrapped ⟨token.span.start, closing.span.stop⟩ inner)
    | _ => pure (Hint.name token.span)
  let joined ← match ← kind? with
    | some (.symbol "|") => pure true
    | some (.symbol "&") => joinsTypes
    | _ => pure false
  if joined then
    let _ ← next
    let right ← g.hint
    return .joined ⟨first.span.start, right.span.stop⟩ first right
  return first

def optionalHint (g : Grammar) : Parser (Option Hint) := do
  match ← kind? with
  | some kind => if startsHint kind then return some (← g.hint) else return none
  | none => return none

def returnType (g : Grammar) : Parser (Option Hint) := do
  if ← accept (.symbol ":") then return some (← g.hint)
  return none

-- A variable, possibly one named by another or by an expression.
def variableName (g : Grammar) : Parser Span := do
  let first ← peek
  let _ ← repeated do
    if ← accept (.symbol "$") then return some ()
    return none
  let token ← peek
  match token.kind with
  | .variable =>
      let _ ← next
      spanFrom first.span.start
  | .symbol "$\x7b" =>
      let _ ← next
      let _ ← g.full
      let _ ← expect (.symbol "\x7d")
      spanFrom first.span.start
  | _ => unexpected [.variable, .symbol "$\x7b", .symbol "$"] token

def argument (g : Grammar) : Parser Argument := do
  let token ← peek
  if token.kind.isIdentifier && (← kindAhead? 1) == some (.symbol ":") then
    let _ ← next
    let _ ← next
    let value ← g.full
    return .named ⟨token.span.start, value.span.stop⟩ token.span value
  let ellipsis ← accept (.symbol "...")
  let value ← g.full
  let start := if ellipsis then token.span.start else value.span.start
  return .positional ⟨start, value.span.stop⟩ ellipsis value

-- An argument of a call, or nothing for a gap that a later call fills.
def argumentOrGap (g : Grammar) : Parser (Option Argument) := do
  let gap : Parser (Option Argument) := do
    let _ ← next
    return none
  let first ← kind
  let following ← kindAhead? 1
  if first == .symbol "?" then gap
  else if first == .symbol "..."
      && (following == some (.symbol ")") || following == some (.symbol ",")) then gap
  else if first.isIdentifier && following == some (.symbol ":")
      && (← kindAhead? 2) == some (.symbol "?") then
    let _ ← next
    let _ ← next
    gap
  else return some (← g.argument)

def argumentList (g : Grammar) : Parser ArgumentList := do
  let opening ← expect (.symbol "(")
  let arguments ← separated (symbolIs ")") g.argument
  let closing ← expect (.symbol ")")
  return .mk ⟨opening.span.start, closing.span.stop⟩ arguments

def optionalArgumentList (g : Grammar) : Parser (Option ArgumentList) := do
  if ← isNext (.symbol "(") then return some (← g.argumentList)
  return none

def attributeItem (g : Grammar) : Parser Unit := do
  let _ ← name
  let _ ← g.optionalArgumentList

def attributes (g : Grammar) : Parser Unit := do
  let _ ← repeated do
    if ← accept (.symbol "#[") then
      let _ ← separated (symbolIs "]") g.attributeItem
      let _ ← expect (.symbol "]")
      return some ()
    return none

def isModifier : TokenKind → Bool :=
  isKeyword
    ["public", "protected", "private", "static", "final", "abstract", "readonly",
      "public(set)", "protected(set)", "private(set)"]

def modifiers : Parser (List Token) :=
  repeated do
    match ← kind? with
    | some kind => if isModifier kind then return some (← next) else return none
    | none => return none

-- The end of a statement. A closing tag takes the opening tag right behind it.
def terminator : Parser Unit := do
  let token ← expectOneOf [.symbol ";", .closeTag]
  if token.kind == .closeTag then
    match ← kind? with
    | some .openTag | some .shortOpenTag =>
        let _ ← next
    | _ => return

def endsStatement : TokenKind → Bool
  | .symbol ";" | .closeTag => true
  | _ => false

def statementsUntil (g : Grammar) (isEnd : TokenKind → Bool) : Parser (List Statement) :=
  itemsUntil isEnd g.statement

def block (g : Grammar) : Parser Block := do
  let opening ← expect (.symbol "\x7b")
  let statements ← g.statementsUntil (symbolIs "\x7d")
  let closing ← expect (.symbol "\x7d")
  return .mk ⟨opening.span.start, closing.span.stop⟩ statements

end Grammar

end Codemod.Php
