import Codemod.Php.Lexer
import Codemod.Php.Grammar.Statement

/-!
The whole grammar: rules that call each other are tied together down to a given nesting depth,
which a text of so many tokens cannot exceed.
-/

namespace Codemod.Php

def Grammar.ofDepth : Nat → Grammar
  | 0 =>
      { expression := fun _ => Parser.exhausted
        statement := Parser.exhausted
        hint := Parser.exhausted }
  | depth + 1 =>
      { expression := fun least cursor => (Grammar.ofDepth depth).expressionRule least cursor
        statement := fun cursor => (Grammar.ofDepth depth).statementRule cursor
        hint := fun cursor => (Grammar.ofDepth depth).hintRule cursor }

def programOf (tokens : List Token) : Except ParseError (List Statement) :=
  let grammar := Grammar.ofDepth (4 * tokens.length + 4)
  let all : Parser (List Statement) := Parser.repeated do
    match ← Parser.kind? with
    | none => return none
    | some _ => return some (← grammar.statement)
  (all.run { tokens }).map Prod.fst

def program (source : String) : Except ParseError (List Statement) :=
  programOf (tokenize source)

end Codemod.Php
