import Codemod.Php.Grammar.Expression

/-!
Statements. Control structures have a form in which a colon and an end keyword take the place of
the braces; both give the same program.
-/

namespace Codemod.Php.Grammar

open Codemod.Php.Parser

def condition (g : Grammar) : Parser Expr := do
  let _ ← expect (.symbol "(")
  let inner ← g.full
  let _ ← expect (.symbol ")")
  return inner

-- A statement, or statements between a colon and an end keyword.
def controlBody (g : Grammar) (ending : String) : Parser (List Statement) := do
  if ← accept (.symbol ":") then
    let body ← g.statementsUntil (isKeyword [ending])
    let _ ← expect (.keyword ending)
    terminator
    return body
  return [← g.statement]

def elseIfs (g : Grammar) (body : Parser (List Statement)) : Parser (List ElseIf) :=
  repeated do
    if ← accept (.keyword "elseif") then
      let condition ← g.condition
      return some (.mk condition (← body))
    return none

def otherwise (body : Parser (List Statement)) : Parser (List Statement) := do
  if ← accept (.keyword "else") then body else return []

def branch (g : Grammar) (start : Nat) : Parser Statement := do
  let _ ← next
  let condition ← g.condition
  if ← isNext (.symbol ":") then
    -- A body goes on to the keyword of the next clause, which is not taken with it.
    let body (endings : List String) : Parser (List Statement) := do
      let _ ← expect (.symbol ":")
      g.statementsUntil (isKeyword endings)
    let consequent ← body ["elseif", "else", "endif"]
    let elseIfs ← g.elseIfs (body ["elseif", "else", "endif"])
    let otherwise ← otherwise (body ["endif"])
    let _ ← expect (.keyword "endif")
    terminator
    return .branch (← spanFrom start) condition consequent elseIfs otherwise
  let body : Parser (List Statement) := do return [← g.statement]
  let consequent ← body
  let elseIfs ← g.elseIfs body
  let otherwise ← otherwise body
  return .branch (← spanFrom start) condition consequent elseIfs otherwise

def whileLoop (g : Grammar) (start : Nat) : Parser Statement := do
  let _ ← next
  let condition ← g.condition
  let body ← g.controlBody "endwhile"
  return .whileLoop (← spanFrom start) condition body

def doWhile (g : Grammar) (start : Nat) : Parser Statement := do
  let _ ← next
  let body ← g.statement
  let _ ← expect (.keyword "while")
  let condition ← g.condition
  terminator
  return .doWhile (← spanFrom start) body condition

def forLoop (g : Grammar) (start : Nat) : Parser Statement := do
  let _ ← next
  let _ ← expect (.symbol "(")
  let initial ← separated (symbolIs ";") g.full
  let _ ← expect (.symbol ";")
  let conditions ← separated (symbolIs ";") g.full
  let _ ← expect (.symbol ";")
  let steps ← separated (symbolIs ")") g.full
  let _ ← expect (.symbol ")")
  let body ← g.controlBody "endfor"
  return .forLoop (← spanFrom start) initial conditions steps body

def foreachLoop (g : Grammar) (start : Nat) : Parser Statement := do
  let _ ← next
  let _ ← expect (.symbol "(")
  let subject ← g.full
  let _ ← expect (.keyword "as")
  let _ ← g.full
  if ← accept (.symbol "=>") then
    let _ ← g.full
  let _ ← expect (.symbol ")")
  let body ← g.controlBody "endforeach"
  return .foreachLoop (← spanFrom start) subject body

def endsSwitch (kind : TokenKind) : Bool :=
  symbolIs "\x7d" kind || isKeyword ["endswitch"] kind

def endsCase (kind : TokenKind) : Bool :=
  endsSwitch kind || isKeyword ["case", "default"] kind

def switchCase (g : Grammar) : Parser (List Statement) := do
  if ← accept (.keyword "default") then pure () else
    let _ ← expect (.keyword "case")
    let _ ← g.full
  let _ ← expectOneOf [.symbol ":", .symbol ";"]
  g.statementsUntil endsCase

def switchCases (g : Grammar) : Parser (List Statement) := do
  -- Before the first case there may be a terminator.
  if endsStatement (← kind) then terminator
  let cases ← itemsUntil endsSwitch g.switchCase
  return cases.flatten

def switch (g : Grammar) (start : Nat) : Parser Statement := do
  let _ ← next
  let subject ← g.condition
  if ← accept (.symbol ":") then
    let cases ← g.switchCases
    let _ ← expect (.keyword "endswitch")
    terminator
    return .switch (← spanFrom start) subject cases
  let _ ← expect (.symbol "\x7b")
  let cases ← g.switchCases
  let _ ← expect (.symbol "\x7d")
  return .switch (← spanFrom start) subject cases

def catchClause (g : Grammar) : Parser (Option Block) := do
  if ← accept (.keyword "catch") then
    let _ ← expect (.symbol "(")
    let _ ← g.hint
    let _ ← accept .variable
    let _ ← expect (.symbol ")")
    return some (← g.block)
  return none

def tryCatch (g : Grammar) (start : Nat) : Parser Statement := do
  let _ ← next
  let first ← g.block
  let handlers ← repeated g.catchClause
  let final ← if ← accept (.keyword "finally") then pure [← g.block] else pure []
  return .tryCatch (← spanFrom start) (first :: handlers ++ final)

def opaqueStatement (start : Nat) (rule : Parser Unit) : Parser Statement := do
  rule
  return .other (← spanFrom start)

def importedKind : Parser Bool := do
  if ← accept (.keyword "function") then return true
  accept (.keyword "const")

def useItem : Parser Unit := do
  let _ ← name
  if ← accept (.keyword "as") then
    let _ ← localName

/-- Imported names, or one namespace with its names in braces. There each name may have a kind of
its own, unless one stands in front of them all. -/
def useStatement : Parser Unit := do
  let _ ← next
  let typed ← importedKind
  if (← kindAhead? 1) == some (.symbol "\\") then
    let _ ← name
    let _ ← next
    let _ ← expect (.symbol "\x7b")
    let _ ← separated (symbolIs "\x7d") do
      unless typed do
        let _ ← importedKind
      useItem
    let _ ← expect (.symbol "\x7d")
  else
    let _ ← joinedBy (.symbol ",") useItem
  terminator

def namespaceStatement (g : Grammar) (start : Nat) : Parser Statement := do
  let _ ← next
  unless (← isNext (.symbol "\x7b")) || endsStatement (← kind) do
    let _ ← name
  if ← isNext (.symbol "\x7b") then
    let .mk _ statements ← g.block
    return .namespaced (← spanFrom start) statements
  terminator
  -- Without braces it goes on to the next one.
  let statements ← repeated do
    match ← kind? with
    | none | some (.keyword "namespace") => return none
    | some _ => return some (← g.statement)
  return .namespaced (← spanFrom start) statements

def declareStatement (g : Grammar) : Parser Unit := do
  let _ ← next
  let _ ← expect (.symbol "(")
  let _ ← separated (symbolIs ")") do
    let _ ← localName
    let _ ← expect (.symbol "=")
    g.full
  let _ ← expect (.symbol ")")
  let _ ← g.controlBody "enddeclare"

def constantStatement (g : Grammar) : Parser Unit := do
  let _ ← next
  g.constantItems

def staticStatement (g : Grammar) : Parser Unit := do
  let _ ← next
  let _ ← separated endsStatement do
    let _ ← expect .variable
    g.defaultValue
  terminator

def globalStatement (g : Grammar) : Parser Unit := do
  let _ ← next
  let _ ← separated endsStatement g.variableName
  terminator

def unsetStatement (g : Grammar) : Parser Unit := do
  let _ ← next
  let _ ← expect (.symbol "(")
  let _ ← separated (symbolIs ")") g.full
  let _ ← expect (.symbol ")")
  terminator

def optionalValue (g : Grammar) : Parser (Option Expr) := do
  let _ ← next
  let value ← if endsStatement (← kind) then pure none else pure (some (← g.full))
  terminator
  return value

-- Values up to the terminator, which takes what follows a comma for another value.
def echoed (g : Grammar) : Parser (List Expr) := do
  let _ ← next
  let values ← separated endsStatement g.full
  terminator
  return values

def haltStatement : Parser Unit := do
  let _ ← next
  let _ ← expect (.symbol "(")
  let _ ← expect (.symbol ")")
  terminator

def gotoStatement : Parser Unit := do
  let _ ← next
  let _ ← localName
  terminator

def expressionStatement (g : Grammar) : Parser Statement := do
  let expression ← g.full
  terminator
  return .expression (← spanFrom expression.span.start) expression

-- Whether no name follows the keyword of the function at hand.
def closureAhead : Parser Bool := do
  let second ← kindAhead? 1
  let third ← kindAhead? 2
  return second == some (.symbol "(")
    || (second == some (.symbol "&") && third == some (.symbol "("))

def closureStatement (g : Grammar) (start : Nat) : Parser Statement := do
  -- Operators behind it are not taken: a statement that starts so ends here.
  let closure ← g.functionExpression start
  terminator
  return .expression (← spanFrom start) closure

-- A function where a name follows its keyword, else a closure.
def functionOrClosure (g : Grammar) (start : Nat) : Parser Statement := do
  if ← closureAhead then g.closureStatement start else g.functionStatement start

def attributedStarts : List TokenKind :=
  ["interface", "trait", "enum", "class", "function", "fn", "readonly", "abstract", "final",
    "static"].map .keyword

def attributed (g : Grammar) (start : Nat) : Parser Statement := do
  g.attributes
  let first ← peek
  let following ← kindAhead? 1
  match first.kind with
  | .keyword "function" => g.functionOrClosure start
  | .keyword "fn" => g.closureStatement start
  -- The attributes are no part of the place of a constant.
  | .keyword "const" => opaqueStatement first.span.start g.constantStatement
  | .keyword "class" | .keyword "interface" | .keyword "trait" | .keyword "enum" =>
      g.classLike start
  -- A static closure; whatever else comes here must be a declaration.
  | .keyword "static" =>
      if following == some (.keyword "function") || following == some (.keyword "fn") then
        g.closureStatement start
      else g.classLike start
  | kind => if isModifier kind then g.classLike start else unexpected attributedStarts first

-- Whether a modifier with this token behind it is rather the start of an expression.
def continuesExpression (kind : TokenKind) : Bool :=
  isKeyword ["fn", "function"] kind || ["::", "(", "->", "?->", "["].any (symbolIs · kind)

def modifiesClass : Parser Bool := do
  return isModifier (← kind) && !continuesExpression (← kindAhead 1)

def labelOrExpression (g : Grammar) (start : Nat) : Parser Statement := do
  if (← kindAhead 1) == .symbol ":" then
    let _ ← next
    let _ ← next
    return .other (← spanFrom start)
  g.expressionStatement

def keywordStatement (g : Grammar) (start : Nat) (word : String) : Parser Statement := do
  match word with
  | "if" => g.branch start
  | "while" => g.whileLoop start
  | "do" => g.doWhile start
  | "for" => g.forLoop start
  | "foreach" => g.foreachLoop start
  | "switch" => g.switch start
  | "try" => g.tryCatch start
  | "return" =>
      let value ← g.optionalValue
      return .returned (← spanFrom start) value
  | "echo" =>
      let values ← g.echoed
      return .echo (← spanFrom start) values
  | "namespace" => g.namespaceStatement start
  | "function" => g.functionOrClosure start
  | "class" | "interface" | "trait" | "enum" => g.classLike start
  | "use" => opaqueStatement start useStatement
  | "declare" => opaqueStatement start g.declareStatement
  | "const" => opaqueStatement start g.constantStatement
  | "global" => opaqueStatement start g.globalStatement
  | "unset" => opaqueStatement start g.unsetStatement
  | "goto" => opaqueStatement start gotoStatement
  | "break" | "continue" =>
      let _ ← g.optionalValue
      return .other (← spanFrom start)
  | "__halt_compiler" => opaqueStatement start haltStatement
  | _ =>
      if word == "static" && (← kindAhead 1) == .variable then
        opaqueStatement start g.staticStatement
      else if ← modifiesClass then g.classLike start
      else g.labelOrExpression start

def statementRule (g : Grammar) : Parser Statement := do
  let token ← peek
  let start := token.span.start
  match token.kind with
  | .inlineText | .openTag | .shortOpenTag | .closeTag | .symbol ";" =>
      let _ ← next
      return .other token.span
  | .echoTag =>
      let _ ← g.echoed
      return .other (← spanFrom start)
  | .symbol "\x7b" => return .block (← g.block)
  | .symbol "#[" => g.attributed start
  | .identifier => g.labelOrExpression start
  | .keyword word => g.keywordStatement start word
  | _ => g.expressionStatement

end Codemod.Php.Grammar
