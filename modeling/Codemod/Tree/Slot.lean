/-!
Where a node can stand. A slot is a named child place of a node; its arity says how many nodes it
holds and whether it may be emptied.
-/

namespace Codemod

structure NodeId where
  index : Nat
deriving DecidableEq, Repr, Inhabited, Hashable

def NodeId.render (id : NodeId) : String :=
  s!"#{id.index}"

inductive Slot where
  | statement
  | part
  | expression
  | callee
  | object
  | method
  | className
  | arguments
  | constructorArguments
  | argument
  | value
  | item
  | key
  | constant
  | name
  | parameter
  | returnType
  | body
  | type
  | variable
  | default
deriving DecidableEq, Repr, Inhabited

inductive Arity where
  | required
  | optional
  | list
deriving DecidableEq, Repr, Inhabited

def Arity.name : Arity → String
  | .required => "Required"
  | .optional => "Optional"
  | .list => "List"

namespace Slot

def all : List Slot :=
  [.statement, .part, .expression, .callee, .object, .method, .className, .arguments,
    .constructorArguments, .argument, .value, .item, .key, .constant, .name, .parameter,
    .returnType, .body, .type, .variable, .default]

def label : Slot → String
  | .statement => "Statement"
  | .part => "Part"
  | .expression => "Expression"
  | .callee => "Callee"
  | .object => "Object"
  | .method => "Method"
  | .className => "Class"
  | .arguments => "Arguments"
  | .constructorArguments => "ConstructorArguments"
  | .argument => "Argument"
  | .value => "Value"
  | .item => "Item"
  | .key => "Key"
  | .constant => "Constant"
  | .name => "Name"
  | .parameter => "Parameter"
  | .returnType => "ReturnType"
  | .body => "Body"
  | .type => "Type"
  | .variable => "Variable"
  | .default => "Default"

def ofLabel? (word : String) : Option Slot :=
  all.find? fun slot => slot.label == word

/-- A part is required: the text around it has no place for its absence. -/
def arity : Slot → Arity
  | .statement | .argument | .item | .parameter => .list
  | .constructorArguments | .key | .returnType | .body | .type | .default => .optional
  | .part | .expression | .callee | .object | .method | .className | .arguments | .value
  | .constant | .name | .variable => .required

end Slot

/-- Back-reference from a child to the slot that holds it. -/
structure Link where
  parent : NodeId
  slot : Slot
deriving DecidableEq, Repr, Inhabited

inductive Kind where
  | program
  | verbatim
  | expressionStatement
  | block
  | functionCall
  | methodCall
  | staticCall
  | new
  | argumentList
  | argument
  | array
  | arrayItem
  | parenthesized
  | classConstFetch
  | classMethod
  | parameter
  | name
  | variable
  | literal
  | raw
deriving DecidableEq, Repr, Inhabited

namespace Kind

def all : List Kind :=
  [.program, .verbatim, .expressionStatement, .block, .functionCall, .methodCall, .staticCall,
    .new, .argumentList, .argument, .array, .arrayItem, .parenthesized, .classConstFetch,
    .classMethod, .parameter, .name, .variable, .literal, .raw]

def label : Kind → String
  | .program => "Program"
  | .verbatim => "Verbatim"
  | .expressionStatement => "ExpressionStatement"
  | .block => "Block"
  | .functionCall => "FunctionCall"
  | .methodCall => "MethodCall"
  | .staticCall => "StaticCall"
  | .new => "New"
  | .argumentList => "ArgumentList"
  | .argument => "Argument"
  | .array => "Array"
  | .arrayItem => "ArrayItem"
  | .parenthesized => "Parenthesized"
  | .classConstFetch => "ClassConstFetch"
  | .classMethod => "ClassMethod"
  | .parameter => "Parameter"
  | .name => "Name"
  | .variable => "Variable"
  | .literal => "Literal"
  | .raw => "Raw"

def ofLabel? (word : String) : Option Kind :=
  all.find? fun kind => kind.label == word

end Kind

end Codemod
