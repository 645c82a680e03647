import Codemod.Php.Program
import Codemod.Text.Blank
import Codemod.Tree.Edit

/-!
From a program to its tree. Nodes are added children first, in source order; constructs that the
tree does not tell apart become verbatim nodes over their editable parts.
-/

namespace Codemod.Tree.OfProgram

open Php

abbrev Build (α : Type) := StateM Tree α

def add (shape : Shape) (span : Span) : Build NodeId :=
  fun tree => tree.appendParsed shape span

def textOf (span : Span) : Build String := do
  return Text.slice (← get).source span.start span.stop

def verbatim (label : String) (span : Span) (parts : List NodeId) : Build NodeId :=
  add (.verbatim label parts) span

def leaf (label : String) (span : Span) : Build NodeId :=
  verbatim label span []

def nameNode (span : Span) : Build NodeId := do
  add (.name (← textOf span)) span

def variableNode (span : Span) : Build NodeId := do
  add (.variable (← textOf span)) span

/-- A text of letters, digits, underscores and separators that does not start with a digit. Any
character outside ASCII counts as a letter: names are the only text here that can hold one. -/
def isNameText (text : String) : Bool :=
  match text.toList with
  | [] => false
  | c :: cs =>
      !c.isDigit && (c :: cs).all fun c => c.isAlphanum || c == '_' || c == '\\' || 128 ≤ c.toNat

def literalKind (raw : String) : LiteralKind :=
  let cs := raw.toList
  if cs.head? == some '\'' || cs.head? == some '"' || ['<', '<', '<'].isPrefixOf cs then .string
  else
    match Text.lower raw with
    | "true" => .true
    | "false" => .false
    | "null" => .null
    | lowered =>
        let ls := lowered.toList
        let based := ['0', 'x'].isPrefixOf ls || ['0', 'b'].isPrefixOf ls
        if !based && (ls.contains '.' || ls.contains 'e') then .float else .integer

def literalNode (span : Span) : Build NodeId := do
  let raw ← textOf span
  add (.literal ⟨literalKind raw, raw⟩) span

-- Label and unpacking of an argument, read off the text in front of its value.
def argumentMarks (front : String) : Option String × Bool :=
  let cs := (Text.trim front).toList
  let label :=
    if cs.getLast? == some ':' then some (Text.trim (String.ofList cs.dropLast)) else none
  (label, ['.', '.', '.'].isPrefixOf cs)

def selectorNode (label : String) : Selector → Build NodeId
  | .identifier span => nameNode span
  | .other span => leaf label span

def hintNode : Hint → Build NodeId
  | .name span => nameNode span
  | .wrapped span inner => do
      let inner ← hintNode inner
      verbatim "type" span [inner]
  | .joined span left right => do
      let left ← hintNode left
      let right ← hintNode right
      verbatim "type" span [left, right]

def optionalHint : Option Hint → Build (Option NodeId)
  | some hint => some <$> hintNode hint
  | none => pure none

def ClassForm.label : ClassForm → String
  | .ordinary => "class"
  | .trait => "trait"
  | .enum => "enum"
  | .interface => "interface"

-- Class references and callees that are plain names become names, all others what they are.
def nameOr (e : Expr) (other : Build NodeId) : Build NodeId := do
  if isNameText (← textOf e.span) then nameNode e.span else other

mutual

def expression : Expr → Build NodeId
  | .functionCall span callee list => do
      let callee ← nameOr callee (expression callee)
      let list ← argumentList list
      add (.functionCall callee list) span
  | .methodCall span object method list nullsafe => do
      let object ← expression object
      let method ← selectorNode "member" method
      let list ← argumentList list
      add (.methodCall object method list nullsafe) span
  | .staticCall span className method list => do
      let className ← nameOr className (expression className)
      let method ← selectorNode "member" method
      let list ← argumentList list
      add (.staticCall className method list) span
  | .instantiation span className list => do
      let className ← nameOr className (expression className)
      let list ← optionalArgumentList list
      add (.new className list) span
  | .classConstant span className constant => do
      let className ← nameOr className (expression className)
      let constant ← selectorNode "constant" constant
      add (.classConstFetch className constant) span
  | .array span items legacy => do
      let items ← elements items
      add (.array items legacy) span
  | .parenthesized span inner => do
      let inner ← expression inner
      add (.parenthesized inner) span
  | .literal span => literalNode span
  | .variable span => variableNode span
  | .identifier span => nameNode span
  | .closure span list returnType body => do
      let parameters ← parameters list
      let returnType ← optionalHint returnType
      let body ← block body
      verbatim "closure" span (parameters ++ returnType.toList ++ [body])
  | .arrowFunction span list returnType body => do
      let parameters ← parameters list
      let returnType ← optionalHint returnType
      let body ← expression body
      verbatim "arrow_function" span (parameters ++ returnType.toList ++ [body])
  | .binary span left right => do
      let left ← expression left
      let right ← expression right
      verbatim "binary" span [left, right]
  | .prefixed span operand => do
      let operand ← expression operand
      verbatim "unary" span [operand]
  | .stepped span operand => do
      let operand ← expression operand
      verbatim "unary" span [operand]
  | .conditional span condition consequent alternative => do
      let condition ← expression condition
      let consequent ← optionalExpression consequent
      let alternative ← expression alternative
      verbatim "conditional" span (condition :: consequent.toList ++ [alternative])
  | .assignment span target value => do
      let target ← expression target
      let value ← expression value
      verbatim "assignment" span [target, value]
  | .arrayAccess span array index => do
      let array ← expression array
      let index ← expression index
      verbatim "array_access" span [array, index]
  | .constant span => leaf "expression" span
  | .other span => leaf "expression" span

def optionalExpression : Option Expr → Build (Option NodeId)
  | some e => some <$> expression e
  | none => pure none

def expressions : List Expr → Build (List NodeId)
  | [] => pure []
  | e :: es => do
      let first ← expression e
      return first :: (← expressions es)

def argumentList : ArgumentList → Build NodeId
  | .mk span list => do
      let list ← arguments list
      add (.argumentList list) span

def optionalArgumentList : Option ArgumentList → Build (Option NodeId)
  | some list => some <$> argumentList list
  | none => pure none

def arguments : List Argument → Build (List NodeId)
  | [] => pure []
  | a :: as => do
      let first ← argument a
      return first :: (← arguments as)

def argument : Argument → Build NodeId
  | .positional span _ value => do
      let (label, unpack) := argumentMarks (← textOf ⟨span.start, value.span.start⟩)
      let value ← expression value
      add (.argument label unpack value) span
  | .named span _ value => do
      let (label, unpack) := argumentMarks (← textOf ⟨span.start, value.span.start⟩)
      let value ← expression value
      add (.argument label unpack value) span

def elements : List Element → Build (List NodeId)
  | [] => pure []
  | e :: es => do
      let first ← element e
      return first :: (← elements es)

def element : Element → Build NodeId
  | .keyValue span key value => do
      let key ← expression key
      let value ← expression value
      add (.arrayItem (some key) value false) span
  | .value span value => do
      let value ← expression value
      add (.arrayItem none value false) span
  | .variadic span value => do
      let value ← expression value
      add (.arrayItem none value true) span
  | .missing span => leaf "missing" span

def parameters : List Parameter → Build (List NodeId)
  | [] => pure []
  | p :: ps => do
      let first ← parameter p
      return first :: (← parameters ps)

def parameter : Parameter → Build NodeId
  | .mk span hint byRef variadic name default => do
      let hint ← optionalHint hint
      let holder ← variableNode name
      let default ← optionalExpression default
      add (.parameter hint byRef variadic holder default) span

def statement : Statement → Build NodeId
  | .expression span e => do
      let e ← expression e
      add (.expressionStatement e) span
  | .block body => block body
  | .namespaced span body => do
      let parts ← statements body
      verbatim "namespace" span parts
  | .classLike span form list => do
      let parts ← methods list
      verbatim (ClassForm.label form) span parts
  | .function span list returnType body => do
      let parameters ← parameters list
      let returnType ← optionalHint returnType
      let body ← block body
      verbatim "function" span (parameters ++ returnType.toList ++ [body])
  | .branch span condition body elseIfs otherwise => do
      let condition ← expression condition
      let body ← statements body
      let others ← elseIfClauses elseIfs
      let otherwise ← statements otherwise
      verbatim "if" span (condition :: body ++ others ++ otherwise)
  | .whileLoop span condition body => do
      let condition ← expression condition
      let body ← statements body
      verbatim "while" span (condition :: body)
  | .doWhile span body condition => do
      let body ← statement body
      let condition ← expression condition
      verbatim "do_while" span [body, condition]
  | .forLoop span initial conditions steps body => do
      let initial ← expressions initial
      let conditions ← expressions conditions
      let steps ← expressions steps
      let body ← statements body
      verbatim "for" span (initial ++ conditions ++ steps ++ body)
  | .foreachLoop span subject body => do
      let subject ← expression subject
      let body ← statements body
      verbatim "foreach" span (subject :: body)
  | .switch span subject body => do
      let subject ← expression subject
      let body ← statements body
      verbatim "switch" span (subject :: body)
  | .tryCatch span list => do
      let parts ← blocks list
      verbatim "try" span parts
  | .returned span value => do
      let value ← optionalExpression value
      verbatim "return" span value.toList
  | .echo span values => do
      let parts ← expressions values
      verbatim "echo" span parts
  | .other span => leaf "statement" span

def statements : List Statement → Build (List NodeId)
  | [] => pure []
  | s :: ss => do
      let first ← statement s
      return first :: (← statements ss)

def elseIfClauses : List ElseIf → Build (List NodeId)
  | [] => pure []
  | .mk condition body :: rest => do
      let condition ← expression condition
      let body ← statements body
      return condition :: body ++ (← elseIfClauses rest)

def block : Block → Build NodeId
  | .mk span body => do
      let body ← statements body
      add (.block body) span

def optionalBlock : Option Block → Build (Option NodeId)
  | some body => some <$> block body
  | none => pure none

def blocks : List Block → Build (List NodeId)
  | [] => pure []
  | b :: bs => do
      let first ← block b
      return first :: (← blocks bs)

def methods : List Method → Build (List NodeId)
  | [] => pure []
  | m :: ms => do
      let first ← method m
      return first :: (← methods ms)

def method : Method → Build NodeId
  | .mk span name list returnType body => do
      let modifiers ← textOf ⟨span.start, name.start⟩
      let name ← nameNode name
      let parameters ← parameters list
      let returnType ← optionalHint returnType
      let body ← optionalBlock body
      add (.classMethod modifiers name parameters returnType body) span

end

end Codemod.Tree.OfProgram

namespace Codemod.Tree

/-- The tree of a program over its source; the root is added last and spans the whole text. -/
def ofProgram (source : String) (program : List Php.Statement) : Tree :=
  let (statements, tree) := OfProgram.statements program (Tree.empty source)
  let whole : Span := ⟨0, source.utf8ByteSize⟩
  let (root, tree) := tree.appendParsed (.program statements) whole
  tree.setRoot root

end Codemod.Tree
