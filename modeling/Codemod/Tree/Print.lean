import Codemod.Text.Blank
import Codemod.Text.Indent
import Codemod.Tree.Basic
import Codemod.Tree.NodeSet

/-!
Printing a tree. The most conservative way that a node allows is taken: an untouched subtree is
copied from the source; a node whose slots are as they were read keeps its text around its
children; a resized list keeps its delimiters and separators; everything else is spelled out.
-/

namespace Codemod

structure PrintOptions where
  /-- One level of indentation for code that is spelled out. -/
  indent : String := "    "
  /-- Chains of more calls than this take a line for each call. -/
  chainThreshold : Nat := 3
deriving DecidableEq, Repr

inductive PrintError where
  | dangling (parent child : NodeId)
  | shared (node : NodeId)
  | sourceless (node : NodeId)
  | splice (error : SpliceError)
  /-- The node lies deeper than the steps given reach. -/
  | tooDeep (node : NodeId)
deriving DecidableEq, Repr

def PrintError.message : PrintError → String
  | .dangling parent child =>
      s!"{child.render} is held by {parent.render} but points at another parent"
  | .shared node => s!"{node.render} is reachable from more than one slot"
  | .sourceless node => s!"verbatim node {node.render} has no source text"
  | .splice error => error.message
  | .tooDeep node => s!"{node.render} lies too deep to print"

namespace Tree

def enqueue (tree : Tree) (parent : NodeId) :
    List (Slot × NodeId) → List NodeId → NodeSet → Except PrintError (List NodeId × NodeSet)
  | [], stack, seen => .ok (stack, seen)
  | (slot, child) :: rest, stack, seen =>
      if !tree.contains child || tree.parent? child ≠ some ⟨parent, slot⟩ then
        .error (.dangling parent child)
      else if seen.contains child then .error (.shared child)
      else tree.enqueue parent rest (child :: stack) (seen.insert child)

def validateFrom (tree : Tree) :
    Nat → List NodeId → NodeSet → Except PrintError Unit
  | _, [], _ => .ok ()
  | 0, id :: _, _ => .error (.tooDeep id)
  | steps + 1, id :: stack, seen => do
      let (stack, seen) ← tree.enqueue id (tree.children id) stack seen
      tree.validateFrom steps stack seen

/-- Every node that can be reached is held by one slot only, the one its back-reference names. -/
def validate (tree : Tree) : Except PrintError Unit :=
  tree.validateFrom tree.size [tree.root] (.just tree.root)

/-- Untouched since it was read, with every child in its place, to the given depth. -/
def pristineTo (tree : Tree) : Nat → NodeId → Bool
  | 0, _ => false
  | depth + 1, id =>
      match tree.node? id with
      | none => false
      | some node =>
          node.span.isSome && !node.touched
            && node.shape.children.length == node.layout.length
            && (node.shape.children.zip node.layout).all fun (child, place) =>
              child.1 == place.1 && tree.span? child.2 == some place.2
                && tree.pristineTo depth child.2

def isPristine (tree : Tree) (id : NodeId) : Bool :=
  tree.pristineTo tree.size id

-- What stands between new neighbours of a list: the first gap without comments, if any.
def separator (source : String) (kind : Kind) (itemBase : String) : List Span → String
  | first :: second :: rest =>
      let gap := Text.slice source first.stop second.start
      if gap.toList.all fun c => Text.isBlank c || c == ',' then gap
      else separator source kind itemBase (second :: rest)
  | _ =>
      match kind with
      | .program | .block => "\n" ++ itemBase
      | _ => ", "

-- Kinds that are rebuilt around their items when their number changed.
def isListKind : Kind → Bool
  | .program | .block | .argumentList | .array => true
  | _ => false

section

variable (tree : Tree) (options : PrintOptions)
variable (print : NodeId → String → Except PrintError String)

def printChild (parent : NodeId) (slot : Slot) (child : NodeId) (base : String) :
    Except PrintError String := do
  let text ← print child base
  if slot = .object ∧ tree.kind? parent = some .methodCall ∧ tree.kind? child = some .new then
    return "(" ++ text ++ ")"
  return text

def childReplacements (id : NodeId) :
    List ((Slot × NodeId) × (Slot × Span)) → Except PrintError (List Replacement)
  | [] => .ok []
  | ((slot, child), (_, place)) :: rest => do
      if tree.span? child == some place && tree.isPristine child then
        childReplacements id rest
      else
        let text ← tree.printChild print id slot child (Text.lineIndent tree.source place.start)
        return ⟨place, text⟩ :: (← childReplacements id rest)

def printAround (id : NodeId) (node : Node) (span : Span) : Except PrintError String := do
  let edits ← tree.childReplacements print id (node.shape.children.zip node.layout)
  match Text.splice tree.source span edits with
  | .ok text => return text
  | .error error => throw (.splice error)

def printItems (places : List Span) (itemBase gap : String) :
    Option (Option Nat) → List NodeId → Except PrintError String
  | _, [] => .ok ""
  | previous, item :: rest => do
      let index := (tree.span? item).bind fun span => places.findIdx? (· == span)
      let between := match previous, index with
        | none, _ => ""
        | some (some a), some b =>
            if b = a + 1 then
              match places[a]?, places[b]? with
              | some before, some after => Text.slice tree.source before.stop after.start
              | _, _ => gap
            else gap
        | some _, _ => gap
      let base := match index.bind fun i => places[i]? with
        | some place => Text.lineIndent tree.source place.start
        | none => itemBase
      let text ← print item base
      return between ++ text ++ (← printItems places itemBase gap (some index) rest)

def printResized (node : Node) (span : Span) (places : List Span) (first : Span) :
    Except PrintError String := do
  let stop := (places.getLast?.getD first).stop
  let front := Text.slice tree.source span.start first.start
  let back := Text.slice tree.source stop span.stop
  let itemBase := Text.lineIndent tree.source first.start
  let gap := separator tree.source node.shape.kind itemBase places
  let items := node.shape.children.map Prod.snd
  let text ← tree.printItems print places itemBase gap none items
  let front := if items.isEmpty then Text.trimEnd front else front
  return front ++ text ++ back

def printJoined (gap : String) (ids : List NodeId) (base : String) : Except PrintError String := do
  return String.intercalate gap (← ids.mapM fun id => print id base)

def printOptional (held : Option NodeId) (base missing : String) (around : String → String) :
    Except PrintError String :=
  match held with
  | some child => return around (← print child base)
  | none => return missing

structure ChainedCall where
  method : NodeId
  arguments : NodeId
  nullsafe : Bool

-- The object a chain of new calls starts from, and the calls in order.
def chain : Nat → NodeId → NodeId × List ChainedCall
  | 0, id => (id, [])
  | depth + 1, id =>
      match tree.shape? id with
      | some (.methodCall object method arguments nullsafe) =>
          let call : ChainedCall := ⟨method, arguments, nullsafe⟩
          if tree.kind? object ≠ some .methodCall ∨ (tree.span? object).isSome then
            (object, [call])
          else
            let (head, calls) := chain depth object
            (head, calls ++ [call])
      | _ => (id, [])

def printCall (base lead : String) (call : ChainedCall) : Except PrintError String := do
  let method ← print call.method base
  let arguments ← print call.arguments base
  return lead ++ (if call.nullsafe then "?->" else "->") ++ method ++ arguments

def printChain (id : NodeId) (base : String) : Except PrintError String := do
  let (head, calls) := tree.chain tree.size id
  let object ← print head base
  let object := if tree.kind? head = some .new then "(" ++ object ++ ")" else object
  let lead :=
    if options.chainThreshold < calls.length then "\n" ++ base ++ options.indent else ""
  let calls ← calls.mapM (printCall print base lead)
  return object ++ String.join calls

def printBlock (statements : List NodeId) (base : String) : Except PrintError String := do
  let inner := base ++ options.indent
  let lines ← statements.mapM fun statement => do
    return "\n" ++ inner ++ (← print statement inner)
  return "\x7b" ++ String.join lines ++ "\n" ++ base ++ "\x7d"

def printCanonical (id : NodeId) (node : Node) (base : String) : Except PrintError String := do
  match node.shape with
  | .program statements => printJoined print "\n" statements base
  | .verbatim _ _ =>
      match node.span with
      | some span => tree.printAround print id node span
      | none => throw (.sourceless id)
  | .expressionStatement expression => return (← print expression base) ++ ";"
  | .block statements => printBlock options print statements base
  | .functionCall callee arguments => return (← print callee base) ++ (← print arguments base)
  | .methodCall .. => tree.printChain options print id base
  | .staticCall className method arguments =>
      return (← print className base) ++ "::" ++ (← print method base)
        ++ (← print arguments base)
  | .new className arguments => do
      let arguments ← printOptional print arguments base "()" (·)
      return "new " ++ (← print className base) ++ arguments
  | .argumentList arguments => return "(" ++ (← printJoined print ", " arguments base) ++ ")"
  | .argument label unpack value =>
      let label := match label with
        | some label => label ++ ": "
        | none => ""
      return label ++ (if unpack then "..." else "") ++ (← print value base)
  | .array items legacy =>
      let items ← printJoined print ", " items base
      return if legacy then "array(" ++ items ++ ")" else "[" ++ items ++ "]"
  | .arrayItem key value unpack =>
      let key ← printOptional print key base "" (· ++ " => ")
      return key ++ (if unpack then "..." else "") ++ (← print value base)
  | .parenthesized expression => return "(" ++ (← print expression base) ++ ")"
  | .classConstFetch className constant =>
      return (← print className base) ++ "::" ++ (← print constant base)
  | .classMethod modifiers title parameters returnType body =>
      let title ← print title base
      let parameters ← printJoined print ", " parameters base
      let returnType ← printOptional print returnType base "" (": " ++ ·)
      let body ← printOptional print body base ";" ("\n" ++ base ++ ·)
      return modifiers ++ title ++ "(" ++ parameters ++ ")" ++ returnType ++ body
  | .parameter hint byRef variadic holder default =>
      let hint ← printOptional print hint base "" (· ++ " ")
      let holder ← print holder base
      let default ← printOptional print default base "" (" = " ++ ·)
      return hint ++ (if byRef then "&" else "") ++ (if variadic then "..." else "") ++ holder
        ++ default
  | .name value => return value
  | .variable spelling => return spelling
  | .literal literal => return literal.raw
  | .raw text => return text

def printNode (id : NodeId) (base : String) : Except PrintError String := do
  match tree.node? id with
  | none => throw (.tooDeep id)
  | some node =>
      match node.span with
      | none => tree.printCanonical options print id node base
      | some span =>
          if tree.isPristine id then
            return Text.slice tree.source span.start span.stop
          let sameSlots := node.shape.children.map Prod.fst == node.layout.map Prod.fst
          if !node.touched && sameSlots then
            tree.printAround print id node span
          else
            match !node.touched && isListKind node.shape.kind, node.layout.map Prod.snd with
            | true, first :: rest => tree.printResized print node span (first :: rest) first
            | _, _ => tree.printCanonical options print id node base

end

def printTo (tree : Tree) (options : PrintOptions) :
    Nat → NodeId → String → Except PrintError String
  | 0, id, _ => .error (.tooDeep id)
  | depth + 1, id, base => tree.printNode options (tree.printTo options depth) id base

def print (tree : Tree) (options : PrintOptions) : Except PrintError String := do
  tree.validate
  tree.printTo options tree.size tree.root ""

end Tree

end Codemod
