import Codemod.Tree.Edit

/-!
Short ways to build the nodes that rules add. Children come first, names after them.
-/

namespace Codemod.Edit

def name (value : String) : Edit NodeId :=
  alloc (.name value)

def variableNode (spelling : String) : Edit NodeId :=
  alloc (.variable spelling)

def stringLiteral (value : String) : Edit NodeId :=
  alloc (.literal (.ofString value))

def raw (text : String) : Edit NodeId :=
  alloc (.raw text)

def argument (value : NodeId) : Edit NodeId :=
  alloc (.argument none false value)

def argumentList (arguments : List NodeId) : Edit NodeId :=
  alloc (.argumentList arguments)

def argumentsOf (values : List NodeId) : Edit NodeId := do
  argumentList (← values.mapM argument)

def functionCall (callee : String) (arguments : NodeId) : Edit NodeId := do
  let callee ← name callee
  alloc (.functionCall callee arguments)

def methodCall (object : NodeId) (method : String) (arguments : NodeId) : Edit NodeId := do
  let method ← name method
  alloc (.methodCall object method arguments false)

def staticCall (className method : String) (arguments : NodeId) : Edit NodeId := do
  let className ← name className
  let method ← name method
  alloc (.staticCall className method arguments)

def newInstance (className : String) (arguments : Option NodeId) : Edit NodeId := do
  let className ← name className
  alloc (.new className arguments)

def parenthesized (expression : NodeId) : Edit NodeId :=
  alloc (.parenthesized expression)

def classConstFetch (className constant : String) : Edit NodeId := do
  let className ← name className
  let constant ← name constant
  alloc (.classConstFetch className constant)

def array (items : List NodeId) : Edit NodeId :=
  alloc (.array items false)

def arrayItem (key : Option NodeId) (value : NodeId) : Edit NodeId :=
  alloc (.arrayItem key value false)

end Codemod.Edit
