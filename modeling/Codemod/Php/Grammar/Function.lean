import Codemod.Php.Grammar.Basic

/-!
Functions and class-like declarations. Members that are no methods are read for their grammar
only.
-/

namespace Codemod.Php.Grammar

open Codemod.Php.Parser

def defaultValue (g : Grammar) : Parser (Option Expr) := do
  if ← accept (.symbol "=") then return some (← g.full)
  return none

/-- One parameter; `hooks` says whether property hooks follow it. A reference mark at its front
is not part of its place. -/
def parameter (g : Grammar) (hooks : Parser Bool) : Parser Parameter := do
  let first ← peek
  g.attributes
  let _ ← modifiers
  let hint ← g.optionalHint
  let byRef ← accept (.symbol "&")
  let ellipsis ← peek
  let variadic ← accept (.symbol "...")
  let holder ← expect .variable
  let start := if variadic && first.kind == .symbol "&" then ellipsis.span.start
    else first.span.start
  let default ← g.defaultValue
  let hooked ← hooks
  let stop ← if hooked then last else
    pure (match default with
      | some value => value.span.stop
      | none => holder.span.stop)
  return .mk ⟨start, stop⟩ hint byRef variadic holder.span default

def parameterList (g : Grammar) (hooks : Parser Bool) : Parser (List Parameter) := do
  let _ ← expect (.symbol "(")
  let parameters ← separated (symbolIs ")") (g.parameter hooks)
  let _ ← expect (.symbol ")")
  return parameters

-- A hook: a name with its own parameters and a body, an expression or nothing.
def hook (g : Grammar) : Parser Unit := do
  g.attributes
  let _ ← modifiers
  let _ ← accept (.symbol "&")
  let _ ← localName
  if ← isNext (.symbol "(") then
    let _ ← g.parameterList (pure false)
  match ← kind with
  | .symbol "\x7b" =>
      let _ ← g.block
  | _ =>
      let mark ← expectOneOf [.symbol ";", .symbol "\x7b", .symbol "=>"]
      if mark.kind == .symbol "=>" then
        let _ ← g.full
        let _ ← expect (.symbol ";")

def hooks (g : Grammar) : Parser Bool := do
  if ← accept (.symbol "\x7b") then
    let _ ← itemsUntil (symbolIs "\x7d") g.hook
    let _ ← expect (.symbol "\x7d")
    return true
  return false

def parameters (g : Grammar) : Parser (List Parameter) :=
  g.parameterList g.hooks

def closureUse : Parser Unit := do
  if ← accept (.keyword "use") then
    let _ ← expect (.symbol "(")
    let _ ← separated (symbolIs ")") do
      let _ ← accept (.symbol "&")
      expect .variable
    let _ ← expect (.symbol ")")

def functionExpression (g : Grammar) (start : Nat) : Parser Expr := do
  let _ ← accept (.keyword "static")
  let keyword ← expectOneOf [.keyword "function", .keyword "fn"]
  let _ ← accept (.symbol "&")
  let parameters ← g.parameters
  if keyword.kind == .keyword "fn" then
    let returnType ← g.returnType
    let _ ← expect (.symbol "=>")
    let body ← g.full
    return .arrowFunction ⟨start, body.span.stop⟩ parameters returnType body
  closureUse
  let returnType ← g.returnType
  let body ← g.block
  return .closure ⟨start, body.span.stop⟩ parameters returnType body

def functionStatement (g : Grammar) (start : Nat) : Parser Statement := do
  let _ ← expect (.keyword "function")
  let _ ← accept (.symbol "&")
  let _ ← localName
  let parameters ← g.parameters
  let returnType ← g.returnType
  let body ← g.block
  return .function ⟨start, body.span.stop⟩ parameters returnType body

def method (g : Grammar) (start : Nat) : Parser Method := do
  let _ ← expect (.keyword "function")
  let _ ← accept (.symbol "&")
  let name ← localName
  let parameters ← g.parameters
  let returnType ← g.returnType
  let body ← match ← kind with
    | .symbol ";" => do
        let _ ← next
        pure none
    | _ => pure (some (← g.block))
  return .mk (← spanFrom start) name.span parameters returnType body

def constantItems (g : Grammar) : Parser Unit := do
  let _ ← separated endsStatement do
    let _ ← localName
    let _ ← expect (.symbol "=")
    g.full
  terminator

/-- Constants; a type stands before the first name unless that name has an equals sign or the
terminator behind it. -/
def constantMember (g : Grammar) : Parser Unit := do
  let _ ← expect (.keyword "const")
  let untyped : Bool := match ← kindAhead? 1 with
    | some kind => endsStatement kind || kind == .symbol "="
    | none => false
  unless untyped do
    let _ ← g.hint
  g.constantItems

def enumCase (g : Grammar) : Parser Unit := do
  let _ ← expect (.keyword "case")
  let _ ← localName
  let _ ← g.defaultValue
  terminator

def property (g : Grammar) : Parser Unit := do
  let _ ← accept (.keyword "var")
  let _ ← g.optionalHint
  let _ ← expect .variable
  let _ ← g.defaultValue
  if ← g.hooks then return
  let _ ← repeated do
    if ← accept (.symbol ",") then
      let _ ← expect .variable
      return some (← g.defaultValue)
    return none
  terminator

-- How the members of a trait are combined and renamed. Only a method whose trait is named can be
-- preferred over others.
def traitAdaptation : Parser Unit := do
  let mark ← if (← kindAhead? 1) == some (.symbol "::") then do
      let _ ← name
      let _ ← next
      let _ ← localName
      expectOneOf [.keyword "as", .keyword "insteadof"]
    else do
      let _ ← localName
      expect (.keyword "as")
  if mark.kind == .keyword "as" then
    let visibility := [TokenKind.keyword "public", .keyword "protected", .keyword "private"]
    if visibility.contains (← kind) then
      let _ ← next
    unless endsStatement (← kind) do
      let _ ← localName
  else
    let _ ← joinedBy (.symbol ",") name
  terminator

def traitUse : Parser Unit := do
  let _ ← expect (.keyword "use")
  let _ ← joinedBy (.symbol ",") name
  if endsStatement (← kind) then terminator else
    let _ ← expect (.symbol "\x7b")
    let _ ← itemsUntil (symbolIs "\x7d") traitAdaptation
    let _ ← expect (.symbol "\x7d")

def member (g : Grammar) : Parser (Option Method) := do
  let start := (← peek).span.start
  if ← isNext (.keyword "use") then
    traitUse
    return none
  g.attributes
  let modifiers ← modifiers
  match ← kind with
  | .keyword "function" => return some (← g.method start)
  | .keyword "const" => g.constantMember
  | .keyword "case" => if modifiers.isEmpty then g.enumCase else g.property
  | _ => g.property
  return none

def members (g : Grammar) : Parser (List Method) := do
  let _ ← expect (.symbol "\x7b")
  let all ← itemsUntil (symbolIs "\x7d") g.member
  let _ ← expect (.symbol "\x7d")
  return all.filterMap id

def heritage (word : String) : Parser Unit := do
  if ← accept (.keyword word) then
    let _ ← joinedBy (.symbol ",") name

def anonymousClass (g : Grammar) : Parser Unit := do
  g.attributes
  let _ ← modifiers
  let _ ← expect (.keyword "class")
  let _ ← g.optionalArgumentList
  heritage "extends"
  heritage "implements"
  let _ ← g.members

-- A declaration from its keyword on; without one of the other keywords it is a class, which alone
-- may have modifiers.
def classLike (g : Grammar) (start : Nat) : Parser Statement := do
  let keyword ← match ← kind with
    | .keyword "interface" | .keyword "trait" | .keyword "enum" => next
    | _ => do
        let _ ← modifiers
        expect (.keyword "class")
  let _ ← localName
  let form ← match keyword.kind with
    | .keyword "interface" => do
        heritage "extends"
        pure ClassForm.interface
    | .keyword "trait" => pure ClassForm.trait
    | .keyword "enum" => do
        let _ ← g.returnType
        heritage "implements"
        pure ClassForm.enum
    | _ => do
        heritage "extends"
        heritage "implements"
        pure ClassForm.ordinary
  let methods ← g.members
  return .classLike (← spanFrom start) form methods

end Codemod.Php.Grammar
