import Codemod.Proofs.Tree.Places
import Codemod.Proofs.Tree.Spelling

/-!
What the nodes of a tree come from. Reading a program adds one node for each construct that it goes
through, the parts before the whole; so the constructs in that order tell for every node what it was
made from, and for the nodes it holds which of them are types. Main statement: the tree of a program is
made from the origins of the program (`ofProgram_listed`).
-/

namespace Codemod

open Php

inductive Origin where
  /-- The type of a parameter or of a result, or a part of one. -/
  | hint (hint : Hint)
  | parameter (parameter : Parameter)
  | argument (argument : Argument)
  /-- Any other construct, by its place. -/
  | other (span : Span)

def Origin.span : Origin → Span
  | .hint type => type.span
  | .parameter held => held.span
  | .argument given => given.span
  | .other span => span

/-! ### The constructs of a program -/

namespace Php

-- Where only a reference stands, a plain name is one construct, whatever it is as an expression.
def named (source : String) (span : Span) (origins : List Origin) : List Origin :=
  if Tree.OfProgram.isNameText (Text.slice source span.start span.stop) then [.other span]
  else origins

def Hint.origins : Hint → List Origin
  | .name span => [.hint (.name span)]
  | .wrapped span inner => inner.origins ++ [.hint (.wrapped span inner)]
  | .joined span left right => left.origins ++ right.origins ++ [.hint (.joined span left right)]

def hintOrigins (hint : Option Hint) : List Origin :=
  hint.toList.flatMap Hint.origins

def Selector.origins (selector : Selector) : List Origin :=
  [.other selector.span]

def Argument.value : Argument → Expr
  | .positional _ _ value | .named _ _ value => value

def Argument.front (source : String) (argument : Argument) : String :=
  Text.slice source argument.span.start argument.value.span.start

mutual

def Expr.origins (source : String) : Expr → List Origin
  | .functionCall span callee list =>
      named source callee.span (callee.origins source) ++ list.origins source ++ [.other span]
  | .methodCall span object method list _ =>
      object.origins source ++ method.origins ++ list.origins source ++ [.other span]
  | .staticCall span className method list =>
      named source className.span (className.origins source) ++ method.origins
        ++ list.origins source ++ [.other span]
  | .instantiation span className list =>
      named source className.span (className.origins source) ++ optionalListOrigins source list
        ++ [.other span]
  | .classConstant span className constant =>
      named source className.span (className.origins source) ++ constant.origins ++ [.other span]
  | .array span elements _ => elementOrigins source elements ++ [.other span]
  | .parenthesized span inner => inner.origins source ++ [.other span]
  | .closure span parameters returnType body =>
      parameterOrigins source parameters ++ hintOrigins returnType ++ body.origins source
        ++ [.other span]
  | .arrowFunction span parameters returnType body =>
      parameterOrigins source parameters ++ hintOrigins returnType ++ body.origins source
        ++ [.other span]
  | .binary span left right | .assignment span left right | .arrayAccess span left right =>
      left.origins source ++ right.origins source ++ [.other span]
  | .prefixed span operand | .stepped span operand => operand.origins source ++ [.other span]
  | .conditional span condition consequent alternative =>
      condition.origins source ++ optionalOrigins source consequent ++ alternative.origins source
        ++ [.other span]
  | .literal span | .variable span | .identifier span | .constant span | .other span =>
      [.other span]

def optionalOrigins (source : String) : Option Expr → List Origin
  | some e => e.origins source
  | none => []

def expressionOrigins (source : String) : List Expr → List Origin
  | [] => []
  | e :: es => e.origins source ++ expressionOrigins source es

def ArgumentList.origins (source : String) : ArgumentList → List Origin
  | .mk span list => argumentOrigins source list ++ [.other span]

def optionalListOrigins (source : String) : Option ArgumentList → List Origin
  | some list => list.origins source
  | none => []

def argumentOrigins (source : String) : List Argument → List Origin
  | [] => []
  | a :: as => a.origins source ++ argumentOrigins source as

def Argument.origins (source : String) : Argument → List Origin
  | .positional span ellipsis value =>
      value.origins source ++ [.argument (.positional span ellipsis value)]
  | .named span name value => value.origins source ++ [.argument (.named span name value)]

def elementOrigins (source : String) : List Element → List Origin
  | [] => []
  | e :: es => e.origins source ++ elementOrigins source es

def Element.origins (source : String) : Element → List Origin
  | .keyValue span key value => key.origins source ++ value.origins source ++ [.other span]
  | .value span value | .variadic span value => value.origins source ++ [.other span]
  | .missing span => [.other span]

def parameterOrigins (source : String) : List Parameter → List Origin
  | [] => []
  | p :: ps => p.origins source ++ parameterOrigins source ps

def Parameter.origins (source : String) : Parameter → List Origin
  | .mk span hint byRef variadic name default =>
      hintOrigins hint ++ [.other name] ++ optionalOrigins source default
        ++ [.parameter (.mk span hint byRef variadic name default)]

def Statement.origins (source : String) : Statement → List Origin
  | .expression span e => e.origins source ++ [.other span]
  | .block body => body.origins source
  | .namespaced span body => statementOrigins source body ++ [.other span]
  | .classLike span _ methods => methodOrigins source methods ++ [.other span]
  | .function span parameters returnType body =>
      parameterOrigins source parameters ++ hintOrigins returnType ++ body.origins source
        ++ [.other span]
  | .branch span condition body elseIfs otherwise =>
      condition.origins source ++ statementOrigins source body ++ elseIfOrigins source elseIfs
        ++ statementOrigins source otherwise ++ [.other span]
  | .whileLoop span condition body | .foreachLoop span condition body
  | .switch span condition body =>
      condition.origins source ++ statementOrigins source body ++ [.other span]
  | .doWhile span body condition => body.origins source ++ condition.origins source ++ [.other span]
  | .forLoop span initial conditions steps body =>
      expressionOrigins source initial ++ expressionOrigins source conditions
        ++ expressionOrigins source steps ++ statementOrigins source body ++ [.other span]
  | .tryCatch span blocks => blockOrigins source blocks ++ [.other span]
  | .returned span value => optionalOrigins source value ++ [.other span]
  | .echo span values => expressionOrigins source values ++ [.other span]
  | .other span => [.other span]

def statementOrigins (source : String) : List Statement → List Origin
  | [] => []
  | s :: ss => s.origins source ++ statementOrigins source ss

def elseIfOrigins (source : String) : List ElseIf → List Origin
  | [] => []
  | .mk condition body :: rest =>
      condition.origins source ++ statementOrigins source body ++ elseIfOrigins source rest

def Block.origins (source : String) : Block → List Origin
  | .mk span body => statementOrigins source body ++ [.other span]

def blockOrigins (source : String) : List Block → List Origin
  | [] => []
  | b :: bs => b.origins source ++ blockOrigins source bs

def optionalBlockOrigins (source : String) : Option Block → List Origin
  | some body => body.origins source
  | none => []

def methodOrigins (source : String) : List Method → List Origin
  | [] => []
  | m :: ms => m.origins source ++ methodOrigins source ms

def Method.origins (source : String) : Method → List Origin
  | .mk span name parameters returnType body =>
      [.other name] ++ parameterOrigins source parameters ++ hintOrigins returnType
        ++ optionalBlockOrigins source body ++ [.other span]

end

-- The constructs of a program, the whole behind its parts.
def origins (source : String) (program : List Statement) : List Origin :=
  statementOrigins source program ++ [.other ⟨0, source.utf8ByteSize⟩]

end Php

/-! ### Types among what a node holds -/

inductive Role where
  | type
  | parameter
  | plain
deriving DecidableEq

def Origin.role : Origin → Role
  | .hint _ => .type
  | .parameter _ => .parameter
  | _ => .plain

/-- A node is made from its origin: names and arguments with what they say, and a type in parts as
such. -/
def Origin.Makes (source : String) : Origin → Shape → Prop
  | .hint (.name span), shape => shape = .name (Text.slice source span.start span.stop)
  | .hint _, shape => ∃ parts, shape = .verbatim "type" parts
  | .parameter (.mk _ _ byRef variadic _ _), shape =>
      ∃ hint holder default, shape = .parameter hint byRef variadic holder default
  | .argument given, shape => ∃ value, shape = .argument
      (Tree.OfProgram.argumentMarks (given.front source)).1
      (Tree.OfProgram.argumentMarks (given.front source)).2 value
  | .other _, shape => ∀ parts, shape ≠ .verbatim "type" parts

/-- Only from a type a type in parts is made. -/
theorem Origin.role_of_makes {source : String} {origin : Origin} {parts : List NodeId}
    (makes : origin.Makes source (.verbatim "type" parts)) : origin.role = .type := by
  cases origin with
  | hint type => rfl
  | parameter held =>
      cases held
      obtain ⟨_, _, _, same⟩ := makes
      cases same
  | argument given =>
      obtain ⟨_, same⟩ := makes
      cases same
  | other span => exact absurd rfl (makes parts)

/-- No name is made from a parameter. -/
theorem Origin.not_parameter {source : String} {origin : Origin} {title : String}
    (makes : origin.Makes source (.name title)) : origin.role ≠ .parameter := by
  cases origin with
  | parameter held =>
      cases held
      obtain ⟨_, _, _, same⟩ := makes
      cases same
  | _ => exact nofun

theorem Origin.role_eq_type_iff {origin : Origin} :
    origin.role = .type ↔ ∃ hint, origin = .hint hint := by
  cases origin <;> simp [role]

namespace Shape

-- Constructs whose parts are parameters, the type of the result and a body.
def isFunction (label : String) : Bool :=
  ["function", "closure", "arrow_function"].contains label

def typePlaces : Shape → List NodeId
  | .parameter hint _ _ _ _ => hint.toList
  | .classMethod _ _ _ returnType _ => returnType.toList
  | .verbatim label parts =>
      if label = "type" then parts else if isFunction label then parts.dropLast else []
  | _ => []

def plainPlaces : Shape → List NodeId
  | .parameter _ _ _ holder default => holder :: default.toList
  | .classMethod _ title parameters _ body => title :: parameters ++ body.toList
  | .verbatim label parts =>
      if label = "type" then [] else if isFunction label then parts.getLast?.toList else parts
  | shape => shape.children.map Prod.snd

/-- Types are held where types stand, and nowhere else. -/
structure Placed (shape : Shape) (plays : NodeId → Role → Prop) : Prop where
  types : ∀ id ∈ shape.typePlaces, plays id .type ∨ plays id .parameter
  plain : ∀ id ∈ shape.plainPlaces, plays id .plain ∨ plays id .parameter

theorem Placed.imp {shape : Shape} {plays others : NodeId → Role → Prop}
    (placed : shape.Placed plays) (all : ∀ {id role}, plays id role → others id role) :
    shape.Placed others where
  types id member := (placed.types id member).imp all all
  plain id member := (placed.plain id member).imp all all

end Shape

namespace Tree

-- The origin of a node. The first node of an arena is not made from anything.
def originAt (origins : List Origin) (id : NodeId) : Option Origin :=
  match id.index with
  | 0 => none
  | index + 1 => origins[index]?

def Plays (origins : List Origin) (id : NodeId) (role : Role) : Prop :=
  ∃ origin, originAt origins id = some origin ∧ origin.role = role

/-- An arena with one node for each origin, made from it, and with types where types stand. -/
structure Listed (source : String) (origins : List Origin) (tree : Tree) : Prop where
  text : tree.source = source
  size : tree.size = origins.length + 1
  first : tree.shape? ⟨0⟩ = some (.program [])
  made : ∀ id origin, originAt origins id = some origin → ∃ shape, tree.shape? id = some shape
    ∧ tree.span? id = some origin.span ∧ origin.Makes source shape ∧ shape.Placed (Plays origins)

theorem originAt_isSome_iff {origins : List Origin} {id : NodeId} :
    (originAt origins id).isSome ↔ 0 < id.index ∧ id.index ≤ origins.length := by
  unfold originAt
  split
  · next first => simp [first]
  · next index place =>
      rw [place, Option.isSome_iff_ne_none, Ne, List.getElem?_eq_none_iff]
      omega

theorem originAt_append {origins : List Origin} {id : NodeId} {origin : Origin}
    (found : originAt origins id = some origin) (more : List Origin) :
    originAt (origins ++ more) id = some origin := by
  unfold originAt at found ⊢
  split at found
  · cases found
  · next index _ =>
      rw [List.getElem?_append_left (List.getElem?_eq_some_iff.mp found).1]
      exact found

theorem Plays.append {origins : List Origin} {id : NodeId} {role : Role}
    (plays : Plays origins id role) (more : List Origin) : Plays (origins ++ more) id role := by
  obtain ⟨origin, found, same⟩ := plays
  exact ⟨origin, originAt_append found more, same⟩

theorem span?_appendParsed (tree : Tree) (shape : Shape) (span : Span) (id : NodeId) :
    (tree.appendParsed shape span).2.span? id
      = if id = ⟨tree.size⟩ then some span else tree.span? id := by
  rw [appendParsed, span?_of_bare (bare_adopt ..), span?, node?_append]
  split <;> rfl

theorem size_appendParsed (tree : Tree) (shape : Shape) (span : Span) :
    (tree.appendParsed shape span).2.size = tree.size + 1 :=
  (framed_adopt _ _ _).size.trans (Array.size_push ..)

/-- One more node. -/
theorem Listed.add {source : String} {origins : List Origin} {tree : Tree} {shape : Shape}
    {origin : Origin} (listed : Listed source origins tree) (made : origin.Makes source shape)
    (placed : shape.Placed (Plays origins)) :
    Listed source (origins ++ [origin]) (tree.appendParsed shape origin.span).2
      ∧ originAt (origins ++ [origin]) (tree.appendParsed shape origin.span).1 = some origin := by
  have new : originAt (origins ++ [origin]) ⟨tree.size⟩ = some origin := by
    rw [listed.size, originAt]
    simp
  refine ⟨⟨(framed_adopt _ _ _).source.trans listed.text, ?_, ?_, ?_⟩, new⟩
  · rw [size_appendParsed, listed.size, List.length_append]
    rfl
  · have grown : (⟨0⟩ : NodeId) ≠ ⟨tree.size⟩ := by
      simp [listed.size]
    rw [shape?_appendParsed, if_neg grown]
    exact listed.first
  · intro id other found
    rw [shape?_appendParsed, span?_appendParsed]
    by_cases here : id = ⟨tree.size⟩
    · rw [here, new] at found
      cases found
      rw [if_pos here, if_pos here]
      exact ⟨shape, rfl, rfl, made, placed.imp fun plays => plays.append _⟩
    · rw [if_neg here, if_neg here]
      -- Any other node was there before, with the origin that it had.
      have before : originAt origins id = some other := by
        unfold originAt at found ⊢
        split at found
        · cases found
        · next index place =>
            rw [List.getElem?_append] at found
            split at found
            · exact found
            · next beyond =>
                have last : index = origins.length := by
                  have := (List.getElem?_eq_some_iff.mp found).1
                  simp at this
                  omega
                exact absurd (congrArg NodeId.mk (place.trans (last ▸ listed.size.symm))) here
      obtain ⟨held, found, spanned, makes, stands⟩ := listed.made id other before
      exact ⟨held, found, spanned, makes, stands.imp fun plays => plays.append _⟩

/-! ### Steps of reading -/

-- What is known of the nodes that a new one may hold.
def Known (origins : List Origin) (known : List (NodeId × Role)) : Prop :=
  ∀ entry ∈ known, Plays origins entry.1 entry.2

theorem known_nil (origins : List Origin) : Known origins [] :=
  fun _ => nofun

namespace OfProgram

/-- A step that adds a node for each of some origins. What it leaves is known from then on. -/
def Lists {α : Type} (source : String) (known : List (NodeId × Role)) (step : Build α)
    (more : List Origin) (result : α → List (NodeId × Role)) : Prop :=
  ∀ origins tree, Listed source origins tree → Known origins known →
    Listed source (origins ++ more) (step tree).2 ∧ Known (origins ++ more) (result (step tree).1)

section

variable {α β : Type} {source : String} {known : List (NodeId × Role)} {step : Build α}
  {more others : List Origin}

theorem lists_pure {value : α} {result : α → List (NodeId × Role)}
    (all : ∀ entry ∈ result value, entry ∈ known) : Lists source known (pure value) [] result := by
  intro origins tree listed knows
  rw [List.append_nil]
  exact ⟨listed, fun entry member => knows entry (all entry member)⟩

theorem lists_bind {between : α → List (NodeId × Role)} {result : β → List (NodeId × Role)}
    {next : α → Build β} (first : Lists source [] step more between)
    (second : ∀ value, Lists source (between value ++ known) (next value) others result) :
    Lists source known (step >>= next) (more ++ others) result := by
  intro origins tree listed knows
  obtain ⟨after, gained⟩ := first origins tree listed (known_nil origins)
  rw [← List.append_assoc]
  refine second _ _ _ after fun entry member => ?_
  rcases List.mem_append.mp member with new | old
  · exact gained entry new
  · exact (knows entry old).append more

theorem lists_map {result : α → List (NodeId × Role)} {also : β → List (NodeId × Role)} (f : α → β)
    (lists : Lists source [] step more result) (all : ∀ value, also (f value) = result value) :
    Lists source [] (f <$> step) more also := by
  intro origins tree listed knows
  obtain ⟨after, gained⟩ := lists origins tree listed knows
  exact ⟨after, (all (step tree).1).symm ▸ gained⟩

theorem lists_textOf {span : Span} {next : String → Build α} {result : α → List (NodeId × Role)}
    (lists : Lists source known (next (Text.slice source span.start span.stop)) more result) :
    Lists source known (textOf span >>= next) more result := by
  intro origins tree listed knows
  have reads : (textOf span >>= next) tree
      = next (Text.slice source span.start span.stop) tree := by
    rw [← listed.text]
    rfl
  rw [reads]
  exact lists origins tree listed knows

theorem lists_add {shape : Shape} (origin : Origin) (made : origin.Makes source shape)
    (placed : shape.Placed fun id role => (id, role) ∈ known) :
    Lists source known (add shape origin.span) [origin] fun id => [(id, origin.role)] := by
  intro origins tree listed knows
  obtain ⟨after, new⟩ := listed.add made (placed.imp fun member => knows _ member)
  refine ⟨after, fun entry member => ?_⟩
  cases List.mem_singleton.mp member
  exact ⟨origin, new, rfl⟩

theorem lists_cons {first : Build NodeId} {rest : Build (List NodeId)} {role : Role}
    (head : Lists source [] first more fun id => [(id, role)])
    (tail : Lists source [] rest others fun ids => ids.map (·, role)) :
    Lists source [] (do let value ← first; return value :: (← rest)) (more ++ others)
      fun ids => ids.map (·, role) := by
  refine lists_bind head fun value => ?_
  rw [← List.append_nil others]
  exact lists_bind tail fun values => lists_pure (by simp +contextual)

end

/-- A construct that holds no types. -/
theorem lists_plain {source : String} {known : List (NodeId × Role)} {shape : Shape} (span : Span)
    (other : ∀ parts, shape ≠ .verbatim "type" parts) (free : shape.typePlaces = [])
    (plain : ∀ id ∈ shape.plainPlaces, (id, .plain) ∈ known) :
    Lists source known (add shape span) [.other span] fun id => [(id, .plain)] :=
  lists_add (.other span) other
    ⟨by simp [free], fun id member => Or.inl (plain id member)⟩

/-! ### Leaves -/

variable {source : String}

theorem lists_nameNode (span : Span) :
    Lists source [] (nameNode span) [.other span] fun id => [(id, .plain)] :=
  lists_textOf (lists_plain span nofun rfl nofun)

theorem lists_variableNode (span : Span) :
    Lists source [] (variableNode span) [.other span] fun id => [(id, .plain)] :=
  lists_textOf (lists_plain span nofun rfl nofun)

theorem lists_literalNode (span : Span) :
    Lists source [] (literalNode span) [.other span] fun id => [(id, .plain)] :=
  lists_textOf (lists_plain span nofun rfl nofun)

/-- A construct whose parts are no types. -/
theorem lists_verbatim {known : List (NodeId × Role)} {label : String} (span : Span)
    {parts : List NodeId} (other : label ≠ "type" ∧ Shape.isFunction label = false)
    (plain : ∀ id ∈ parts, (id, .plain) ∈ known) :
    Lists source known (verbatim label span parts) [.other span] fun id => [(id, .plain)] := by
  refine lists_plain span (fun _ same => other.1 (Shape.verbatim.inj same).1) ?_ ?_
  · simp [Shape.typePlaces, other]
  · simpa [Shape.plainPlaces, other] using plain

/-- A construct with parameters, the type of its result and a body. -/
theorem lists_function {known : List (NodeId × Role)} {label : String} (span : Span)
    (function : label ≠ "type" ∧ Shape.isFunction label = true) {parameters : List NodeId}
    {result : Option NodeId} {body : NodeId} (params : ∀ id ∈ parameters, (id, .parameter) ∈ known)
    (types : ∀ id ∈ result, (id, .type) ∈ known) (last : (body, .plain) ∈ known) :
    Lists source known (verbatim label span (parameters ++ result.toList ++ [body])) [.other span]
      fun id => [(id, .plain)] := by
  refine lists_add (.other span) (fun _ same => function.1 (Shape.verbatim.inj same).1) ?_
  constructor
  · intro id member
    rw [Shape.typePlaces, if_neg function.1, if_pos function.2, List.dropLast_concat] at member
    rcases List.mem_append.mp member with param | type
    · exact Or.inr (params id param)
    · exact Or.inl (types id (Option.mem_toList.mp type))
  · intro id member
    rw [Shape.plainPlaces, if_neg function.1, if_pos function.2, List.getLast?_concat] at member
    cases List.mem_singleton.mp member
    exact Or.inl last

theorem lists_leaf {label : String} (other : label ≠ "type" ∧ Shape.isFunction label = false)
    (span : Span) :
    Lists source [] (leaf label span) [.other span] fun id => [(id, .plain)] :=
  lists_verbatim span other nofun

theorem lists_selectorNode {label : String} (other : label ≠ "type" ∧ Shape.isFunction label = false)
    (selector : Selector) :
    Lists source [] (selectorNode label selector) selector.origins fun id => [(id, .plain)] := by
  cases selector with
  | identifier span => exact lists_nameNode span
  | other span => exact lists_leaf other span

theorem lists_hintNode (hint : Hint) :
    Lists source [] (hintNode hint) hint.origins fun id => [(id, .type)] := by
  induction hint with
  | name span => exact lists_textOf (lists_add (.hint (.name span)) rfl ⟨nofun, nofun⟩)
  | wrapped span inner ih =>
      refine lists_bind ih fun id => lists_add (.hint (.wrapped span inner)) ⟨_, rfl⟩ ?_
      constructor <;> simp [Shape.typePlaces, Shape.plainPlaces]
  | joined span left right leftIh rightIh =>
      rw [Hint.origins, List.append_assoc]
      refine lists_bind leftIh fun first => lists_bind rightIh fun second =>
        lists_add (.hint (.joined span left right)) ⟨_, rfl⟩ ?_
      constructor <;> simp [Shape.typePlaces, Shape.plainPlaces]

theorem lists_optionalHint (hint : Option Hint) :
    Lists source [] (optionalHint hint) (hintOrigins hint) fun held => held.toList.map (·, .type) := by
  cases hint with
  | none => exact lists_pure nofun
  | some hint =>
      rw [hintOrigins, Option.toList_some, List.flatMap_cons, List.flatMap_nil, List.append_nil]
      exact lists_map some (lists_hintNode hint) fun _ => rfl

theorem lists_nameOr {e : Expr} {other : Build NodeId} {origins : List Origin}
    (lists : Lists source [] other origins fun id => [(id, .plain)]) :
    Lists source [] (nameOr e other) (named source e.span origins) fun id => [(id, .plain)] := by
  refine lists_textOf ?_
  rw [named]
  split
  · exact lists_nameNode e.span
  · exact lists

/-- An argument with the marks that the text before its value shows. -/
theorem lists_marked (given : Argument) {value : Build NodeId} {more : List Origin}
    (lists : Lists source [] value more fun id => [(id, .plain)]) :
    Lists source []
      (do
        let (label, unpack) := argumentMarks (← textOf ⟨given.span.start, given.value.span.start⟩)
        let value ← value
        add (.argument label unpack value) given.span)
      (more ++ [.argument given]) fun id => [(id, .plain)] := by
  refine lists_textOf ?_
  rw [← Argument.front]
  cases marks : argumentMarks (given.front source) with
  | mk label unpack =>
      refine lists_bind lists fun id => lists_add (.argument given) ?_ ⟨nofun, ?_⟩
      · exact ⟨id, by rw [marks]⟩
      · simp [Shape.plainPlaces, Shape.children]

/-! ### Expressions and statements -/

mutual

-- For each construct its parts are listed in the order in which they are read, then it is added itself.
theorem lists_expression : ∀ e : Expr,
    Lists source [] (expression e) (e.origins source) fun id => [(id, .plain)]
  | .functionCall span callee list => by
      rw [expression, Expr.origins, List.append_assoc]
      refine lists_bind (lists_nameOr (lists_expression callee)) fun _ => ?_
      refine lists_bind (lists_argumentList list) fun _ => ?_
      exact lists_plain span nofun rfl (by simp [Shape.plainPlaces, Shape.children])
  | .methodCall span object method list nullsafe => by
      rw [expression, Expr.origins, List.append_assoc, List.append_assoc]
      refine lists_bind (lists_expression object) fun _ => ?_
      refine lists_bind (lists_selectorNode (by decide) method) fun _ => ?_
      refine lists_bind (lists_argumentList list) fun _ => ?_
      exact lists_plain span nofun rfl (by simp [Shape.plainPlaces, Shape.children])
  | .staticCall span className method list => by
      rw [expression, Expr.origins, List.append_assoc, List.append_assoc]
      refine lists_bind (lists_nameOr (lists_expression className)) fun _ => ?_
      refine lists_bind (lists_selectorNode (by decide) method) fun _ => ?_
      refine lists_bind (lists_argumentList list) fun _ => ?_
      exact lists_plain span nofun rfl (by simp [Shape.plainPlaces, Shape.children])
  | .instantiation span className list => by
      rw [expression, Expr.origins, List.append_assoc]
      refine lists_bind (lists_nameOr (lists_expression className)) fun _ => ?_
      refine lists_bind (lists_optionalArgumentList list) fun _ => ?_
      exact lists_plain span nofun rfl (by simp +contextual [Shape.plainPlaces, Shape.children])
  | .classConstant span className constant => by
      rw [expression, Expr.origins, List.append_assoc]
      refine lists_bind (lists_nameOr (lists_expression className)) fun _ => ?_
      refine lists_bind (lists_selectorNode (by decide) constant) fun _ => ?_
      exact lists_plain span nofun rfl (by simp [Shape.plainPlaces, Shape.children])
  | .array span items legacy => by
      rw [expression, Expr.origins]
      refine lists_bind (lists_elements items) fun _ => ?_
      exact lists_plain span nofun rfl (by simp +contextual [Shape.plainPlaces, Shape.children])
  | .parenthesized span inner => by
      rw [expression, Expr.origins]
      refine lists_bind (lists_expression inner) fun _ => ?_
      exact lists_plain span nofun rfl (by simp [Shape.plainPlaces, Shape.children])
  | .literal span => by
      rw [expression, Expr.origins]
      exact lists_literalNode span
  | .variable span => by
      rw [expression, Expr.origins]
      exact lists_variableNode span
  | .identifier span => by
      rw [expression, Expr.origins]
      exact lists_nameNode span
  | .constant span
  | .other span => by
      rw [expression, Expr.origins]
      exact lists_leaf (by decide) span
  | .closure span list returnType body => by
      rw [expression, Expr.origins, List.append_assoc, List.append_assoc]
      refine lists_bind (lists_parameters list) fun _ => ?_
      refine lists_bind (lists_optionalHint returnType) fun _ => ?_
      refine lists_bind (lists_block body) fun _ => ?_
      exact lists_function span (by decide) (by simp +contextual) (by simp +contextual) (by simp)
  | .arrowFunction span list returnType body => by
      rw [expression, Expr.origins, List.append_assoc, List.append_assoc]
      refine lists_bind (lists_parameters list) fun _ => ?_
      refine lists_bind (lists_optionalHint returnType) fun _ => ?_
      refine lists_bind (lists_expression body) fun _ => ?_
      exact lists_function span (by decide) (by simp +contextual) (by simp +contextual) (by simp)
  | .binary span left right
  | .assignment span left right
  | .arrayAccess span left right => by
      rw [expression, Expr.origins, List.append_assoc]
      refine lists_bind (lists_expression left) fun _ => ?_
      refine lists_bind (lists_expression right) fun _ => ?_
      exact lists_verbatim span (by decide) (by simp)
  | .prefixed span operand
  | .stepped span operand => by
      rw [expression, Expr.origins]
      refine lists_bind (lists_expression operand) fun _ => ?_
      exact lists_verbatim span (by decide) (by simp)
  | .conditional span condition consequent alternative => by
      rw [expression, Expr.origins, List.append_assoc, List.append_assoc]
      refine lists_bind (lists_expression condition) fun _ => ?_
      refine lists_bind (lists_optionalExpression consequent) fun _ => ?_
      refine lists_bind (lists_expression alternative) fun _ => ?_
      exact lists_verbatim span (by decide) (by simp +contextual [or_imp])

theorem lists_optionalExpression : ∀ held : Option Expr,
    Lists source [] (optionalExpression held) (optionalOrigins source held)
      fun held => held.toList.map (·, .plain)
  | none => by
      rw [optionalExpression, optionalOrigins]
      exact lists_pure nofun
  | some held => by
      rw [optionalExpression, optionalOrigins]
      exact lists_map some (lists_expression held) fun _ => rfl

theorem lists_expressions : ∀ list : List Expr,
    Lists source [] (expressions list) (expressionOrigins source list) fun ids => ids.map (·, .plain)
  | [] => by
      rw [expressions, expressionOrigins]
      exact lists_pure nofun
  | first :: rest => by
      rw [expressions, expressionOrigins]
      exact lists_cons (lists_expression first) (lists_expressions rest)

theorem lists_argumentList : ∀ list : ArgumentList,
    Lists source [] (argumentList list) (list.origins source) fun id => [(id, .plain)]
  | .mk span list => by
      rw [argumentList, ArgumentList.origins]
      refine lists_bind (lists_arguments list) fun _ => ?_
      exact lists_plain span nofun rfl (by simp +contextual [Shape.plainPlaces, Shape.children])

theorem lists_optionalArgumentList : ∀ held : Option ArgumentList,
    Lists source [] (optionalArgumentList held) (optionalListOrigins source held)
      fun held => held.toList.map (·, .plain)
  | none => by
      rw [optionalArgumentList, optionalListOrigins]
      exact lists_pure nofun
  | some held => by
      rw [optionalArgumentList, optionalListOrigins]
      exact lists_map some (lists_argumentList held) fun _ => rfl

theorem lists_arguments : ∀ list : List Argument,
    Lists source [] (arguments list) (argumentOrigins source list) fun ids => ids.map (·, .plain)
  | [] => by
      rw [arguments, argumentOrigins]
      exact lists_pure nofun
  | first :: rest => by
      rw [arguments, argumentOrigins]
      exact lists_cons (lists_argument first) (lists_arguments rest)

theorem lists_argument : ∀ a : Argument,
    Lists source [] (argument a) (a.origins source) fun id => [(id, .plain)]
  | .positional span ellipsis value => by
      rw [argument, Argument.origins]
      exact lists_marked (.positional span ellipsis value) (lists_expression value)
  | .named span name value => by
      rw [argument, Argument.origins]
      exact lists_marked (.named span name value) (lists_expression value)

theorem lists_elements : ∀ list : List Element,
    Lists source [] (elements list) (elementOrigins source list) fun ids => ids.map (·, .plain)
  | [] => by
      rw [elements, elementOrigins]
      exact lists_pure nofun
  | first :: rest => by
      rw [elements, elementOrigins]
      exact lists_cons (lists_element first) (lists_elements rest)

theorem lists_element : ∀ e : Element,
    Lists source [] (element e) (e.origins source) fun id => [(id, .plain)]
  | .keyValue span key value => by
      rw [element, Element.origins, List.append_assoc]
      refine lists_bind (lists_expression key) fun _ => ?_
      refine lists_bind (lists_expression value) fun _ => ?_
      exact lists_plain span nofun rfl (by simp [Shape.plainPlaces, Shape.children])
  | .value span value
  | .variadic span value => by
      rw [element, Element.origins]
      refine lists_bind (lists_expression value) fun _ => ?_
      exact lists_plain span nofun rfl (by simp [Shape.plainPlaces, Shape.children])
  | .missing span => by
      rw [element, Element.origins]
      exact lists_leaf (by decide) span

theorem lists_parameters : ∀ list : List Parameter,
    Lists source [] (parameters list) (parameterOrigins source list) fun ids => ids.map (·, .parameter)
  | [] => by
      rw [parameters, parameterOrigins]
      exact lists_pure nofun
  | first :: rest => by
      rw [parameters, parameterOrigins]
      exact lists_cons (lists_parameter first) (lists_parameters rest)

theorem lists_parameter : ∀ p : Parameter,
    Lists source [] (parameter p) (p.origins source) fun id => [(id, .parameter)]
  | .mk span hint byRef variadic name default => by
      rw [parameter, Parameter.origins, List.append_assoc, List.append_assoc]
      refine lists_bind (lists_optionalHint hint) fun _ => ?_
      refine lists_bind (lists_variableNode name) fun _ => ?_
      refine lists_bind (lists_optionalExpression default) fun _ => ?_
      refine lists_add (.parameter (.mk span hint byRef variadic name default))
        ⟨_, _, _, rfl⟩ ?_
      constructor <;> simp +contextual [Shape.typePlaces, Shape.plainPlaces]

theorem lists_statement : ∀ s : Statement,
    Lists source [] (statement s) (s.origins source) fun id => [(id, .plain)]
  | .expression span e => by
      rw [statement, Statement.origins]
      refine lists_bind (lists_expression e) fun _ => ?_
      exact lists_plain span nofun rfl (by simp [Shape.plainPlaces, Shape.children])
  | .block body => by
      rw [statement, Statement.origins]
      exact lists_block body
  | .namespaced span body => by
      rw [statement, Statement.origins]
      refine lists_bind (lists_statements body) fun _ => ?_
      exact lists_verbatim span (by decide) (by simp)
  | .classLike span form list => by
      rw [statement, Statement.origins]
      refine lists_bind (lists_methods list) fun _ => ?_
      exact lists_verbatim span (by cases form <;> decide) (by simp)
  | .function span list returnType body => by
      rw [statement, Statement.origins, List.append_assoc, List.append_assoc]
      refine lists_bind (lists_parameters list) fun _ => ?_
      refine lists_bind (lists_optionalHint returnType) fun _ => ?_
      refine lists_bind (lists_block body) fun _ => ?_
      exact lists_function span (by decide) (by simp +contextual) (by simp +contextual) (by simp)
  | .branch span condition body elseIfs otherwise => by
      rw [statement, Statement.origins, List.append_assoc, List.append_assoc, List.append_assoc]
      refine lists_bind (lists_expression condition) fun _ => ?_
      refine lists_bind (lists_statements body) fun _ => ?_
      refine lists_bind (lists_elseIfClauses elseIfs) fun _ => ?_
      refine lists_bind (lists_statements otherwise) fun _ => ?_
      exact lists_verbatim span (by decide) (by simp +contextual [or_imp])
  | .whileLoop span condition body
  | .foreachLoop span condition body
  | .switch span condition body => by
      rw [statement, Statement.origins, List.append_assoc]
      refine lists_bind (lists_expression condition) fun _ => ?_
      refine lists_bind (lists_statements body) fun _ => ?_
      exact lists_verbatim span (by decide) (by simp +contextual [or_imp])
  | .doWhile span body condition => by
      rw [statement, Statement.origins, List.append_assoc]
      refine lists_bind (lists_statement body) fun _ => ?_
      refine lists_bind (lists_expression condition) fun _ => ?_
      exact lists_verbatim span (by decide) (by simp)
  | .forLoop span initial conditions steps body => by
      rw [statement, Statement.origins, List.append_assoc, List.append_assoc, List.append_assoc]
      refine lists_bind (lists_expressions initial) fun _ => ?_
      refine lists_bind (lists_expressions conditions) fun _ => ?_
      refine lists_bind (lists_expressions steps) fun _ => ?_
      refine lists_bind (lists_statements body) fun _ => ?_
      exact lists_verbatim span (by decide) (by simp +contextual [or_imp])
  | .tryCatch span list => by
      rw [statement, Statement.origins]
      refine lists_bind (lists_blocks list) fun _ => ?_
      exact lists_verbatim span (by decide) (by simp)
  | .returned span value => by
      rw [statement, Statement.origins]
      refine lists_bind (lists_optionalExpression value) fun _ => ?_
      exact lists_verbatim span (by decide) (by simp)
  | .echo span values => by
      rw [statement, Statement.origins]
      refine lists_bind (lists_expressions values) fun _ => ?_
      exact lists_verbatim span (by decide) (by simp)
  | .other span => by
      rw [statement, Statement.origins]
      exact lists_leaf (by decide) span

theorem lists_statements : ∀ list : List Statement,
    Lists source [] (statements list) (statementOrigins source list) fun ids => ids.map (·, .plain)
  | [] => by
      rw [statements, statementOrigins]
      exact lists_pure nofun
  | first :: rest => by
      rw [statements, statementOrigins]
      exact lists_cons (lists_statement first) (lists_statements rest)

theorem lists_elseIfClauses : ∀ list : List ElseIf,
    Lists source [] (elseIfClauses list) (elseIfOrigins source list) fun ids => ids.map (·, .plain)
  | [] => by
      rw [elseIfClauses, elseIfOrigins]
      exact lists_pure nofun
  | .mk condition body :: rest => by
      rw [elseIfClauses, elseIfOrigins, List.append_assoc, ← List.append_nil (elseIfOrigins _ _)]
      refine lists_bind (lists_expression condition) fun _ => ?_
      refine lists_bind (lists_statements body) fun _ => ?_
      exact lists_bind (lists_elseIfClauses rest) fun _ => lists_pure (by simp +contextual [or_imp])

theorem lists_block : ∀ b : Block,
    Lists source [] (block b) (b.origins source) fun id => [(id, .plain)]
  | .mk span body => by
      rw [block, Block.origins]
      refine lists_bind (lists_statements body) fun _ => ?_
      exact lists_plain span nofun rfl (by simp [Shape.plainPlaces, Shape.children])

theorem lists_optionalBlock : ∀ held : Option Block,
    Lists source [] (optionalBlock held) (optionalBlockOrigins source held)
      fun held => held.toList.map (·, .plain)
  | none => by
      rw [optionalBlock, optionalBlockOrigins]
      exact lists_pure nofun
  | some held => by
      rw [optionalBlock, optionalBlockOrigins]
      exact lists_map some (lists_block held) fun _ => rfl

theorem lists_blocks : ∀ list : List Block,
    Lists source [] (blocks list) (blockOrigins source list) fun ids => ids.map (·, .plain)
  | [] => by
      rw [blocks, blockOrigins]
      exact lists_pure nofun
  | first :: rest => by
      rw [blocks, blockOrigins]
      exact lists_cons (lists_block first) (lists_blocks rest)

theorem lists_methods : ∀ list : List Method,
    Lists source [] (methods list) (methodOrigins source list) fun ids => ids.map (·, .plain)
  | [] => by
      rw [methods, methodOrigins]
      exact lists_pure nofun
  | first :: rest => by
      rw [methods, methodOrigins]
      exact lists_cons (lists_method first) (lists_methods rest)

theorem lists_method : ∀ m : Method,
    Lists source [] (method m) (m.origins source) fun id => [(id, .plain)]
  | .mk span name list returnType body => by
      rw [method, Method.origins, List.append_assoc, List.append_assoc, List.append_assoc]
      refine lists_textOf (lists_bind (lists_nameNode name) fun _ => ?_)
      refine lists_bind (lists_parameters list) fun _ => ?_
      refine lists_bind (lists_optionalHint returnType) fun _ => ?_
      refine lists_bind (lists_optionalBlock body) fun _ => ?_
      refine lists_add (.other span) nofun ?_
      constructor <;> simp +contextual [Shape.typePlaces, Shape.plainPlaces, or_imp]

end

end OfProgram

/-! ### The tree of a program -/

theorem listed_empty (source : String) : Listed source [] (Tree.empty source) := by
  refine ⟨rfl, rfl, rfl, ?_⟩
  intro id origin found
  unfold originAt at found
  split at found
  · cases found
  · cases found

theorem Listed.setRoot {source : String} {origins : List Origin} {tree : Tree}
    (listed : Listed source origins tree) (id : NodeId) : Listed source origins (tree.setRoot id) := by
  have framed : tree.Framed (tree.setParent id none) := framed_setParent ..
  constructor
  · exact framed.source.trans listed.text
  · exact framed.size.trans listed.size
  · rw [shape?_setRoot]
    exact listed.first
  · intro other origin found
    have spans : (tree.setRoot id).span? other = tree.span? other := by
      rw [span?, node?_setRoot, Option.bind_map]
      rfl
    rw [shape?_setRoot, spans]
    exact listed.made other origin found

variable {source : String} {program : List Statement}

/-- The tree of a program has one node for each of its constructs, and the root is the last one. -/
theorem ofProgram_listed (source : String) (program : List Statement) :
    Listed source (origins source program) (ofProgram source program) := by
  obtain ⟨listed, known⟩ := OfProgram.lists_statements program [] _ (listed_empty source) (known_nil [])
  have placed : (Shape.program (OfProgram.statements program (Tree.empty source)).1).Placed
      (Plays ([] ++ statementOrigins source program)) := by
    refine ⟨nofun, fun id member => Or.inl (known (id, .plain) ?_)⟩
    simpa [Shape.plainPlaces, Shape.children] using member
  have made : Origin.Makes source (.other ⟨0, source.utf8ByteSize⟩)
      (.program (OfProgram.statements program (Tree.empty source)).1) := fun _ => nofun
  exact (listed.add made placed).1.setRoot _

theorem originAt_root : originAt (origins source program) (ofProgram source program).root
    = some (.other ⟨0, source.utf8ByteSize⟩) := by
  obtain ⟨listed, _⟩ := OfProgram.lists_statements program [] _ (listed_empty source) (known_nil [])
  have root : (ofProgram source program).root
      = ⟨(OfProgram.statements program (Tree.empty source)).2.size⟩ := rfl
  rw [root, listed.size, originAt, origins]
  simp

end Tree

end Codemod
