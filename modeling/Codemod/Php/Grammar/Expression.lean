import Codemod.Php.Grammar.Function

/-!
Expressions by precedence climbing: an operand, then operators as long as they bind at least as
tightly as asked for. Operators of one level group to the left or, where the table says so, to
the right.
-/

namespace Codemod.Php.Grammar

open Codemod.Php.Parser

def assignmentLevel : Level := 40
def conditionalLevel : Level := 50
def unaryLevel : Level := 190
def instanceofLevel : Level := 200
def silenceLevel : Level := 210
def cloneLevel : Level := 230
def stepLevel : Level := 240
def referenceLevel : Level := 250
def callLevel : Level := 260
def newLevel : Level := 270
def indexLevel : Level := 280
def memberLevel : Level := 290

inductive Grouping where
  | left
  | right
deriving DecidableEq

def assignmentOperators : List String :=
  ["=", "+=", "-=", "*=", "/=", ".=", "%=", "&=", "|=", "^=", "<<=", ">>=", "**=", "??="]

def operatorLevel? : TokenKind → Option (Level × Grouping)
  | .keyword "or" => some (10, .left)
  | .keyword "xor" => some (20, .left)
  | .keyword "and" => some (30, .left)
  | .keyword "instanceof" => some (instanceofLevel, .right)
  | .symbol spelling =>
      if assignmentOperators.contains spelling then some (assignmentLevel, .right)
      else
        match spelling with
        | "?" => some (conditionalLevel, .left)
        | "??" => some (60, .right)
        | "||" => some (70, .left)
        | "&&" => some (80, .left)
        | "|" => some (90, .left)
        | "^" => some (100, .left)
        | "&" => some (110, .left)
        | "==" | "!=" | "===" | "!==" | "<>" | "<=>" => some (120, .right)
        | "<" | "<=" | ">" | ">=" => some (130, .right)
        | "|>" => some (140, .left)
        | "." => some (150, .left)
        | "<<" | ">>" => some (160, .left)
        | "+" | "-" => some (170, .left)
        | "*" | "/" | "%" => some (180, .left)
        | "**" => some (220, .right)
        | _ => none
  | _ => none

def suffixLevel? : TokenKind → Option Level
  | .symbol "++" | .symbol "--" => some stepLevel
  | .symbol "(" => some callLevel
  | .symbol "[" => some indexLevel
  | .symbol "->" | .symbol "?->" | .symbol "::" => some memberLevel
  | _ => none

def prefixLevel? : TokenKind → Option Level
  | .cast _ => some unaryLevel
  | .symbol spelling =>
      match spelling with
      | "!" | "~" | "-" | "+" => some unaryLevel
      | "@" => some silenceLevel
      | "++" | "--" => some stepLevel
      | "&" => some referenceLevel
      | _ => none
  | _ => none

def stringParts (g : Grammar) (closing : TokenKind) : Parser Unit := do
  let _ ← itemsUntil (· == closing) do
    match ← kind with
    | .stringPart =>
        let _ ← next
    | .symbol "\x7b" =>
        let _ ← next
        let _ ← g.full
        let _ ← expect (.symbol "\x7d")
    | _ =>
        let _ ← g.full
  let _ ← expect closing

def element (g : Grammar) : Parser Element := do
  let token ← peek
  match token.kind with
  | .symbol "," => return .missing token.span
  | .symbol "..." =>
      let _ ← next
      let value ← g.full
      return .variadic ⟨token.span.start, value.span.stop⟩ value
  | _ =>
      let first ← g.full
      if ← accept (.symbol "=>") then
        let value ← g.full
        return .keyValue ⟨first.span.start, value.span.stop⟩ first value
      return .value first.span first

def elements (g : Grammar) (closing : String) : Parser (List Element) := do
  let all ← separated (symbolIs closing) g.element
  let _ ← expect (.symbol closing)
  return all

-- What a generator yields, with or without a key; nothing at the end of a statement.
def yielded (g : Grammar) (start : Nat) : Parser Expr := do
  let _ ← next
  let following ← kind
  if endsStatement following then return .other (← spanFrom start)
  if following == .keyword "from" then
    let _ ← next
    let source ← g.full
    return .other ⟨start, source.span.stop⟩
  let first ← g.full
  if ← accept (.symbol "=>") then
    let value ← g.full
    return .other ⟨start, value.span.stop⟩
  return .other ⟨start, first.span.stop⟩

def matchArm (g : Grammar) : Parser Unit := do
  unless ← accept (.keyword "default") do
    let _ ← separated (symbolIs "=>") g.full
  let _ ← expect (.symbol "=>")
  let _ ← g.full

def matchExpression (g : Grammar) (start : Nat) : Parser Expr := do
  let _ ← next
  let _ ← expect (.symbol "(")
  let _ ← g.full
  let _ ← expect (.symbol ")")
  let _ ← expect (.symbol "\x7b")
  let _ ← separated (symbolIs "\x7d") g.matchArm
  let _ ← expect (.symbol "\x7d")
  return .other (← spanFrom start)

def enclosedConstruct (content : Parser Unit) (start : Nat) : Parser Expr := do
  let _ ← next
  let _ ← expect (.symbol "(")
  content
  let _ ← expect (.symbol ")")
  return .other (← spanFrom start)

def appliedConstruct (g : Grammar) (start : Nat) : Parser Expr := do
  let _ ← next
  let value ← g.full
  return .other ⟨start, value.span.stop⟩

/-- What is instantiated: a class declared here, or a name, a variable or an expression in
parentheses, with members and indices but without a call. -/
def instantiation (g : Grammar) (start : Nat) : Parser Expr := do
  let _ ← next
  let first ← kind
  let declared := first == .keyword "class" || first == .symbol "#["
    || (isModifier first && first != .keyword "static")
  if declared then
    g.anonymousClass
    return .other (← spanFrom start)
  let className ← g.expression newLevel
  let arguments ← g.optionalArgumentList
  let stop := match arguments with
    | some list => list.span.stop
    | none => className.span.stop
  return .instantiation ⟨start, stop⟩ className arguments

-- Arguments of a call, or nothing where it has gaps and so stands for a function.
def callArguments (g : Grammar) : Parser (Option ArgumentList) := do
  let opening ← expect (.symbol "(")
  let arguments ← separated (symbolIs ")") g.argumentOrGap
  let closing ← expect (.symbol ")")
  return (arguments.mapM id).map (.mk ⟨opening.span.start, closing.span.stop⟩ ·)

/-- The copy of an object. In parentheses there may stand more than the one object, which makes a
call of it. -/
def cloned (g : Grammar) (keyword : Token) : Parser Expr := do
  let start := keyword.span.start
  let _ ← next
  unless ← isNext (.symbol "(") do
    let value ← g.expression cloneLevel
    return .other ⟨start, value.span.stop⟩
  let opening ← next
  let (arguments, closed) ← separatedClosed (symbolIs ")") g.argumentOrGap
  let closing ← expect (.symbol ")")
  match closed, arguments.mapM id with
  | _, none | true, some [.positional _ false _] => return .other (← spanFrom start)
  | _, some arguments =>
      let list := ArgumentList.mk ⟨opening.span.start, closing.span.stop⟩ arguments
      return .functionCall ⟨start, closing.span.stop⟩ (.identifier keyword.span) list

/-- A name: of a class where one is asked for, of a class or something called where a double
colon or an opening parenthesis follows, else of a constant. -/
def namedOperand (least : Level) : Parser Expr := do
  let token ← next
  if least == newLevel || least == instanceofLevel then return .identifier token.span
  match ← kind? with
  | some (.symbol "(") | some (.symbol "::") => return .identifier token.span
  | _ => return .constant token.span

def keywordOperand (g : Grammar) (least : Level) (token : Token) (word : String) :
    Parser Expr := do
  let start := token.span.start
  let following ← kindAhead? 1
  match word with
  | "true" | "false" | "null" =>
      if (following.bind suffixLevel?).isSome then namedOperand least else
        let _ ← next
        return .literal token.span
  | "function" | "fn" => g.functionExpression start
  | "static" =>
      if following == some (.keyword "function") || following == some (.keyword "fn") then
        g.functionExpression start
      else
        let _ ← next
        return .other token.span
  | "self" | "parent" | "__class__" | "__dir__" | "__file__" | "__function__" | "__line__"
  | "__method__" | "__namespace__" | "__property__" | "__trait__" =>
      let _ ← next
      return .other token.span
  | "new" => g.instantiation start
  | "clone" => g.cloned token
  | "throw" | "include" | "include_once" | "require" | "require_once" | "print" =>
      g.appliedConstruct start
  | "yield" => g.yielded start
  | "isset" =>
      enclosedConstruct (do let _ ← separated (symbolIs ")") g.full) start
  | "empty" | "eval" => enclosedConstruct (do let _ ← g.full) start
  | "exit" | "die" =>
      let _ ← next
      let _ ← g.optionalArgumentList
      return .other (← spanFrom start)
  | "match" =>
      if following == some (.symbol "(") then g.matchExpression start else namedOperand least
  | "list" =>
      if following == some (.symbol "(") then
        let _ ← next
        let _ ← next
        let _ ← g.elements ")"
        return .other (← spanFrom start)
      else namedOperand least
  | "array" =>
      if following == some (.symbol "(") then
        let _ ← next
        let _ ← next
        let elements ← g.elements ")"
        return .array (← spanFrom start) elements true
      else unexpected [] token
  | "enum" | "from" | "readonly" => namedOperand least
  | _ => unexpected [] token

def operand (g : Grammar) (least : Level) : Parser Expr := do
  let token ← peek
  let start := token.span.start
  match prefixLevel? token.kind with
  | some level =>
      let _ ← next
      let inner ← g.expression level
      let span : Span := ⟨start, inner.span.stop⟩
      return if level == stepLevel then .stepped span inner else .prefixed span inner
  | none =>
      match token.kind with
      | .keyword word => g.keywordOperand least token word
      | .identifier | .qualifiedIdentifier | .fullyQualifiedIdentifier => namedOperand least
      | .literalInteger | .literalFloat | .literalString =>
          let _ ← next
          return .literal token.span
      | .partialLiteralString double => throw (.unclosedString double start)
      | .variable | .symbol "$" | .symbol "$\x7b" => return .variable (← g.variableName)
      | .symbol "(" =>
          let _ ← next
          let inner ← g.full
          let closing ← expect (.symbol ")")
          return .parenthesized ⟨start, closing.span.stop⟩ inner
      | .symbol "[" =>
          let _ ← next
          let elements ← g.elements "]"
          return .array (← spanFrom start) elements false
      | .symbol "#[" =>
          g.attributes
          let first ← peek
          unless isKeyword ["function", "fn", "static"] first.kind do
            unexpected [.keyword "function", .keyword "fn", .keyword "static"] first
          g.functionExpression start
      | .symbol "\"" =>
          let _ ← next
          g.stringParts token.kind
          return .other (← spanFrom start)
      | .symbol "\x60" =>
          let _ ← next
          g.stringParts token.kind
          return .other (← spanFrom start)
      | .documentStart =>
          let _ ← next
          g.stringParts .documentEnd
          -- A document is placed by its opening alone.
          return .other token.span
      | _ => unexpected [] token

/-- What stands after an arrow or a double colon; a variable is told apart, for without a call it
is a static property. -/
def selector (g : Grammar) : Parser (Selector × Bool) := do
  let token ← peek
  if token.kind.isIdentifier then
    let _ ← next
    return (.identifier token.span, false)
  match token.kind with
  | .variable | .symbol "$" | .symbol "$\x7b" => return (.other (← g.variableName), true)
  | .symbol "\x7b" =>
      let _ ← next
      let _ ← g.full
      let _ ← expect (.symbol "\x7d")
      return (.other (← spanFrom token.span.start), false)
  | _ =>
      unexpected [.variable, .symbol "$\x7b", .symbol "$", .symbol "\x7b", .identifier] token

-- Whether a call follows a member and binds tightly enough to belong to it.
def callsMember (least : Level) : Parser Bool := do
  return least < callLevel && (← isNext (.symbol "("))

def memberAccess (g : Grammar) (least : Level) (object : Expr) (nullsafe : Bool) :
    Parser Expr := do
  let _ ← next
  let (method, _) ← g.selector
  let start := object.span.start
  if ← callsMember least then
    match ← g.callArguments with
    | some list => return .methodCall ⟨start, list.span.stop⟩ object method list nullsafe
    | none => return .other (← spanFrom start)
  return .other ⟨start, method.span.stop⟩

def staticAccess (g : Grammar) (least : Level) (className : Expr) : Parser Expr := do
  let _ ← next
  let (method, isVariable) ← g.selector
  let start := className.span.start
  if ← callsMember least then
    match ← g.callArguments with
    | some list => return .staticCall ⟨start, list.span.stop⟩ className method list
    | none => return .other (← spanFrom start)
  if isVariable then return .other ⟨start, method.span.stop⟩
  return .classConstant ⟨start, method.span.stop⟩ className method

def suffix (g : Grammar) (least : Level) (left : Expr) (kind : TokenKind) : Parser Expr := do
  let start := left.span.start
  match kind with
  | .symbol "(" =>
      match ← g.callArguments with
      | some list => return .functionCall ⟨start, list.span.stop⟩ left list
      | none => return .other (← spanFrom start)
  | .symbol "[" =>
      let _ ← next
      if ← accept (.symbol "]") then return .other (← spanFrom start)
      let index ← g.full
      let closing ← expect (.symbol "]")
      return .arrayAccess ⟨start, closing.span.stop⟩ left index
  | .symbol "->" => g.memberAccess least left false
  | .symbol "?->" => g.memberAccess least left true
  | .symbol "::" => g.staticAccess least left
  | _ =>
      let token ← next
      return .stepped ⟨start, token.span.stop⟩ left

/-- An assignment to the rightmost operand: in front of an assignment, operators apply to its
result. -/
def assigned (value : Expr) : Expr → Expr
  | .prefixed span operand =>
      let inner := assigned value operand
      .prefixed ⟨span.start, inner.span.stop⟩ inner
  | .binary span left right =>
      let inner := assigned value right
      .binary ⟨span.start, inner.span.stop⟩ left inner
  | .conditional span condition consequent alternative =>
      let inner := assigned value alternative
      .conditional ⟨span.start, inner.span.stop⟩ condition consequent inner
  | target => .assignment ⟨target.span.start, value.span.stop⟩ target value

def assignedValue (g : Grammar) (kind : TokenKind) : Parser Expr := do
  if kind == .symbol "=" && (← isNext (.symbol "&")) then g.expression referenceLevel
  else g.expression assignmentLevel

def operation (g : Grammar) (left : Expr) (kind : TokenKind) (level : Level) : Parser Expr := do
  let _ ← next
  let start := left.span.start
  if level == assignmentLevel then
    return assigned (← g.assignedValue kind) left
  match kind with
  | .symbol "?" =>
      let consequent ← if ← isNext (.symbol ":") then pure none else pure (some (← g.full))
      let _ ← expect (.symbol ":")
      let alternative ← g.expression conditionalLevel
      return .conditional ⟨start, alternative.span.stop⟩ left consequent alternative
  | .symbol "|>" =>
      let right ← g.expression level
      return .other ⟨start, right.span.stop⟩
  | _ =>
      let right ← g.expression level
      return .binary ⟨start, right.span.stop⟩ left right

def climb (g : Grammar) (least : Level) : Nat → Expr → Parser Expr
  | 0, _ => exhausted
  | rounds + 1, left => do
      match ← kind? with
      | none => return left
      | some kind =>
          match suffixLevel? kind with
          | some level =>
              if level < least then return left
              g.climb least rounds (← g.suffix least left kind)
          | none =>
              match operatorLevel? kind with
              | some (level, grouping) =>
                  if level < least || (level == least && grouping == .left) then return left
                  g.climb least rounds (← g.operation left kind level)
              | none => return left

def expressionRule (g : Grammar) (least : Level) : Parser Expr := do
  let first ← g.operand least
  g.climb least (← rounds) first

end Codemod.Php.Grammar
