import Codemod.Tree.Slot
import Codemod.Tree.Literal

/-!
What a node is made of: one constructor per kind, with the children it holds in each slot and the
data of its own. `children` lists the held nodes in source order; `storage?` and `store` read and
write one slot.
-/

namespace Codemod

inductive Shape where
  | program (statements : List NodeId)
  /-- A construct kept as source text; the parts are the editable nodes inside it. -/
  | verbatim (label : String) (parts : List NodeId)
  | expressionStatement (expression : NodeId)
  | block (statements : List NodeId)
  | functionCall (callee arguments : NodeId)
  | methodCall (object method arguments : NodeId) (nullsafe : Bool)
  | staticCall (className method arguments : NodeId)
  | new (className : NodeId) (arguments : Option NodeId)
  | argumentList (arguments : List NodeId)
  | argument (label : Option String) (unpack : Bool) (value : NodeId)
  | array (items : List NodeId) (legacy : Bool)
  | arrayItem (key : Option NodeId) (value : NodeId) (unpack : Bool)
  | parenthesized (expression : NodeId)
  | classConstFetch (className constant : NodeId)
  /-- The modifiers are everything before the name. -/
  | classMethod (modifiers : String) (title : NodeId) (parameters : List NodeId)
      (returnType body : Option NodeId)
  | parameter (hint : Option NodeId) (byRef variadic : Bool) (holder : NodeId)
      (default : Option NodeId)
  | name (value : String)
  | variable (name : String)
  | literal (literal : Literal)
  /-- Code supplied as text by a rule. -/
  | raw (text : String)
deriving DecidableEq, Repr, Inhabited

inductive Storage where
  | one (held : NodeId)
  | maybe (held : Option NodeId)
  | many (held : List NodeId)
deriving DecidableEq, Repr

namespace Storage

def ids : Storage → List NodeId
  | .one held => [held]
  | .maybe held => held.toList
  | .many held => held

def replace? (old new : NodeId) : Storage → Option Storage
  | .one held => if held = old then some (.one new) else none
  | .maybe held => if held = some old then some (.maybe (some new)) else none
  | .many held => if old ∈ held then some (.many (held.replace old new)) else none

def remove? (node : NodeId) : Storage → Option Storage
  | .one _ => none
  | .maybe held => if held = some node then some (.maybe none) else none
  | .many held => if node ∈ held then some (.many (held.erase node)) else none

end Storage

def spliceFirst (node : NodeId) (replacement : List NodeId) : List NodeId → List NodeId
  | [] => []
  | id :: rest =>
      if id = node then replacement ++ rest else id :: spliceFirst node replacement rest

namespace Shape

def kind : Shape → Kind
  | .program .. => .program
  | .verbatim .. => .verbatim
  | .expressionStatement .. => .expressionStatement
  | .block .. => .block
  | .functionCall .. => .functionCall
  | .methodCall .. => .methodCall
  | .staticCall .. => .staticCall
  | .new .. => .new
  | .argumentList .. => .argumentList
  | .argument .. => .argument
  | .array .. => .array
  | .arrayItem .. => .arrayItem
  | .parenthesized .. => .parenthesized
  | .classConstFetch .. => .classConstFetch
  | .classMethod .. => .classMethod
  | .parameter .. => .parameter
  | .name .. => .name
  | .variable .. => .variable
  | .literal .. => .literal
  | .raw .. => .raw

def tagged (slot : Slot) (ids : List NodeId) : List (Slot × NodeId) :=
  ids.map fun id => (slot, id)

@[simp] theorem map_snd_tagged (slot : Slot) (ids : List NodeId) :
    (tagged slot ids).map Prod.snd = ids := by
  simp [tagged, Function.comp_def]

def children : Shape → List (Slot × NodeId)
  | .program statements | .block statements => tagged .statement statements
  | .verbatim _ parts => tagged .part parts
  | .expressionStatement expression | .parenthesized expression => [(.expression, expression)]
  | .functionCall callee arguments => [(.callee, callee), (.arguments, arguments)]
  | .methodCall object method arguments _ =>
      [(.object, object), (.method, method), (.arguments, arguments)]
  | .staticCall className method arguments =>
      [(.className, className), (.method, method), (.arguments, arguments)]
  | .new className arguments =>
      (.className, className) :: tagged .constructorArguments arguments.toList
  | .argumentList arguments => tagged .argument arguments
  | .argument _ _ value => [(.value, value)]
  | .array items _ => tagged .item items
  | .arrayItem key value _ => tagged .key key.toList ++ [(.value, value)]
  | .classConstFetch className constant => [(.className, className), (.constant, constant)]
  | .classMethod _ title parameters returnType body =>
      (.name, title) :: tagged .parameter parameters ++ tagged .returnType returnType.toList
        ++ tagged .body body.toList
  | .parameter hint _ _ holder default =>
      tagged .type hint.toList ++ (.variable, holder) :: tagged .default default.toList
  | .name _ | .variable _ | .literal _ | .raw _ => []

def storage? : Shape → Slot → Option Storage
  | .program statements, .statement => some (.many statements)
  | .block statements, .statement => some (.many statements)
  | .verbatim _ parts, .part => some (.many parts)
  | .expressionStatement expression, .expression => some (.one expression)
  | .parenthesized expression, .expression => some (.one expression)
  | .functionCall callee _, .callee => some (.one callee)
  | .functionCall _ arguments, .arguments => some (.one arguments)
  | .methodCall object _ _ _, .object => some (.one object)
  | .methodCall _ method _ _, .method => some (.one method)
  | .methodCall _ _ arguments _, .arguments => some (.one arguments)
  | .staticCall className _ _, .className => some (.one className)
  | .staticCall _ method _, .method => some (.one method)
  | .staticCall _ _ arguments, .arguments => some (.one arguments)
  | .new className _, .className => some (.one className)
  | .new _ arguments, .constructorArguments => some (.maybe arguments)
  | .argumentList arguments, .argument => some (.many arguments)
  | .argument _ _ value, .value => some (.one value)
  | .array items _, .item => some (.many items)
  | .arrayItem key _ _, .key => some (.maybe key)
  | .arrayItem _ value _, .value => some (.one value)
  | .classConstFetch className _, .className => some (.one className)
  | .classConstFetch _ constant, .constant => some (.one constant)
  | .classMethod _ title _ _ _, .name => some (.one title)
  | .classMethod _ _ parameters _ _, .parameter => some (.many parameters)
  | .classMethod _ _ _ returnType _, .returnType => some (.maybe returnType)
  | .classMethod _ _ _ _ body, .body => some (.maybe body)
  | .parameter hint _ _ _ _, .type => some (.maybe hint)
  | .parameter _ _ _ holder _, .variable => some (.one holder)
  | .parameter _ _ _ _ default, .default => some (.maybe default)
  | _, _ => none

-- The node with other contents in one slot. A storage of the wrong form is not taken.
def store : Shape → Slot → Storage → Shape
  | .program _, .statement, .many ids => .program ids
  | .block _, .statement, .many ids => .block ids
  | .verbatim label _, .part, .many ids => .verbatim label ids
  | .expressionStatement _, .expression, .one id => .expressionStatement id
  | .parenthesized _, .expression, .one id => .parenthesized id
  | .functionCall _ arguments, .callee, .one id => .functionCall id arguments
  | .functionCall callee _, .arguments, .one id => .functionCall callee id
  | .methodCall _ method arguments nullsafe, .object, .one id =>
      .methodCall id method arguments nullsafe
  | .methodCall object _ arguments nullsafe, .method, .one id =>
      .methodCall object id arguments nullsafe
  | .methodCall object method _ nullsafe, .arguments, .one id =>
      .methodCall object method id nullsafe
  | .staticCall _ method arguments, .className, .one id => .staticCall id method arguments
  | .staticCall className _ arguments, .method, .one id => .staticCall className id arguments
  | .staticCall className method _, .arguments, .one id => .staticCall className method id
  | .new _ arguments, .className, .one id => .new id arguments
  | .new className _, .constructorArguments, .maybe id => .new className id
  | .argumentList _, .argument, .many ids => .argumentList ids
  | .argument label unpack _, .value, .one id => .argument label unpack id
  | .array _ legacy, .item, .many ids => .array ids legacy
  | .arrayItem _ value unpack, .key, .maybe id => .arrayItem id value unpack
  | .arrayItem key _ unpack, .value, .one id => .arrayItem key id unpack
  | .classConstFetch _ constant, .className, .one id => .classConstFetch id constant
  | .classConstFetch className _, .constant, .one id => .classConstFetch className id
  | .classMethod modifiers _ parameters returnType body, .name, .one id =>
      .classMethod modifiers id parameters returnType body
  | .classMethod modifiers title _ returnType body, .parameter, .many ids =>
      .classMethod modifiers title ids returnType body
  | .classMethod modifiers title parameters _ body, .returnType, .maybe id =>
      .classMethod modifiers title parameters id body
  | .classMethod modifiers title parameters returnType _, .body, .maybe id =>
      .classMethod modifiers title parameters returnType id
  | .parameter _ byRef variadic holder default, .type, .maybe id =>
      .parameter id byRef variadic holder default
  | .parameter hint byRef variadic _ default, .variable, .one id =>
      .parameter hint byRef variadic id default
  | .parameter hint byRef variadic holder _, .default, .maybe id =>
      .parameter hint byRef variadic holder id
  | shape, _, _ => shape

def nameText? : Shape → Option String
  | .name value => some value
  | .variable spelling => some spelling
  | _ => none

end Shape

end Codemod
