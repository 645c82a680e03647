import Codemod.Php.Program

/-!
Where the parts of a program stand: every construct with its span and the spans of the parts in it,
in source order. What is to be assumed of the spans of a program is said of this list.
-/

namespace Codemod.Php

def Hint.places : Hint → List (Span × List Span)
  | .name span => [(span, [])]
  | .wrapped span inner => (span, [inner.span]) :: inner.places
  | .joined span left right => (span, [left.span, right.span]) :: left.places ++ right.places

def Selector.places (selector : Selector) : List (Span × List Span) :=
  [(selector.span, [])]

def hintSpans (hint : Option Hint) : List Span :=
  hint.toList.map Hint.span

def hintPlaces (hint : Option Hint) : List (Span × List Span) :=
  hint.toList.flatMap Hint.places

def Argument.span : Argument → Span
  | .positional span _ _ | .named span _ _ => span

def Element.span : Element → Span
  | .keyValue span _ _ | .value span _ | .variadic span _ | .missing span => span

def Parameter.span : Parameter → Span
  | .mk span _ _ _ _ _ => span

-- The spans of the parts of a branch, which has no span of its own.
def ElseIf.spans : ElseIf → List Span
  | .mk condition body => condition.span :: body.map Statement.span

mutual

def Expr.places : Expr → List (Span × List Span)
  | .functionCall span callee list =>
      (span, [callee.span, list.span]) :: callee.places ++ list.places
  | .methodCall span object method list _ =>
      (span, [object.span, method.span, list.span]) :: object.places ++ method.places ++ list.places
  | .staticCall span className method list =>
      (span, [className.span, method.span, list.span])
        :: className.places ++ method.places ++ list.places
  | .instantiation span className list =>
      (span, className.span :: list.toList.map ArgumentList.span)
        :: className.places ++ optionalListPlaces list
  | .classConstant span className constant =>
      (span, [className.span, constant.span]) :: className.places ++ constant.places
  | .array span elements _ => (span, elements.map Element.span) :: elementPlaces elements
  | .parenthesized span inner => (span, [inner.span]) :: inner.places
  | .closure span parameters returnType body =>
      (span, parameters.map Parameter.span ++ hintSpans returnType ++ [body.span])
        :: parameterPlaces parameters ++ hintPlaces returnType ++ body.places
  | .arrowFunction span parameters returnType body =>
      (span, parameters.map Parameter.span ++ hintSpans returnType ++ [body.span])
        :: parameterPlaces parameters ++ hintPlaces returnType ++ body.places
  | .binary span left right | .assignment span left right | .arrayAccess span left right =>
      (span, [left.span, right.span]) :: left.places ++ right.places
  | .prefixed span operand | .stepped span operand => (span, [operand.span]) :: operand.places
  | .conditional span condition consequent alternative =>
      (span, condition.span :: consequent.toList.map Expr.span ++ [alternative.span])
        :: condition.places ++ optionalPlaces consequent ++ alternative.places
  | .literal span | .variable span | .identifier span | .constant span | .other span => [(span, [])]

def optionalPlaces : Option Expr → List (Span × List Span)
  | some e => e.places
  | none => []

def expressionPlaces : List Expr → List (Span × List Span)
  | [] => []
  | e :: es => e.places ++ expressionPlaces es

def ArgumentList.places : ArgumentList → List (Span × List Span)
  | .mk span list => (span, list.map Argument.span) :: argumentPlaces list

def optionalListPlaces : Option ArgumentList → List (Span × List Span)
  | some list => list.places
  | none => []

def argumentPlaces : List Argument → List (Span × List Span)
  | [] => []
  | a :: as => a.places ++ argumentPlaces as

def Argument.places : Argument → List (Span × List Span)
  | .positional span _ value | .named span _ value => (span, [value.span]) :: value.places

def elementPlaces : List Element → List (Span × List Span)
  | [] => []
  | e :: es => e.places ++ elementPlaces es

def Element.places : Element → List (Span × List Span)
  | .keyValue span key value => (span, [key.span, value.span]) :: key.places ++ value.places
  | .value span value | .variadic span value => (span, [value.span]) :: value.places
  | .missing span => [(span, [])]

def parameterPlaces : List Parameter → List (Span × List Span)
  | [] => []
  | p :: ps => p.places ++ parameterPlaces ps

def Parameter.places : Parameter → List (Span × List Span)
  | .mk span hint _ _ name default =>
      (span, hintSpans hint ++ name :: default.toList.map Expr.span)
        :: hintPlaces hint ++ (name, []) :: optionalPlaces default

def Statement.places : Statement → List (Span × List Span)
  | .expression span e => (span, [e.span]) :: e.places
  | .block body => body.places
  | .namespaced span body => (span, body.map Statement.span) :: statementPlaces body
  | .classLike span _ methods => (span, methods.map Method.span) :: methodPlaces methods
  | .function span parameters returnType body =>
      (span, parameters.map Parameter.span ++ hintSpans returnType ++ [body.span])
        :: parameterPlaces parameters ++ hintPlaces returnType ++ body.places
  | .branch span condition body elseIfs otherwise =>
      (span, condition.span :: body.map Statement.span ++ elseIfs.flatMap ElseIf.spans
          ++ otherwise.map Statement.span)
        :: condition.places ++ statementPlaces body ++ elseIfPlaces elseIfs
          ++ statementPlaces otherwise
  | .whileLoop span condition body | .foreachLoop span condition body
  | .switch span condition body =>
      (span, condition.span :: body.map Statement.span) :: condition.places ++ statementPlaces body
  | .doWhile span body condition =>
      (span, [body.span, condition.span]) :: body.places ++ condition.places
  | .forLoop span initial conditions steps body =>
      (span, initial.map Expr.span ++ conditions.map Expr.span ++ steps.map Expr.span
          ++ body.map Statement.span)
        :: expressionPlaces initial ++ expressionPlaces conditions ++ expressionPlaces steps
          ++ statementPlaces body
  | .tryCatch span blocks => (span, blocks.map Block.span) :: blockPlaces blocks
  | .returned span value => (span, value.toList.map Expr.span) :: optionalPlaces value
  | .echo span values => (span, values.map Expr.span) :: expressionPlaces values
  | .other span => [(span, [])]

def statementPlaces : List Statement → List (Span × List Span)
  | [] => []
  | s :: ss => s.places ++ statementPlaces ss

def elseIfPlaces : List ElseIf → List (Span × List Span)
  | [] => []
  | .mk condition body :: rest => condition.places ++ statementPlaces body ++ elseIfPlaces rest

def Block.places : Block → List (Span × List Span)
  | .mk span body => (span, body.map Statement.span) :: statementPlaces body

def blockPlaces : List Block → List (Span × List Span)
  | [] => []
  | b :: bs => b.places ++ blockPlaces bs

def optionalBlockPlaces : Option Block → List (Span × List Span)
  | some body => body.places
  | none => []

def methodPlaces : List Method → List (Span × List Span)
  | [] => []
  | m :: ms => m.places ++ methodPlaces ms

def Method.places : Method → List (Span × List Span)
  | .mk span name parameters returnType body =>
      (span, name :: parameters.map Parameter.span ++ hintSpans returnType
          ++ body.toList.map Block.span)
        :: (name, []) :: parameterPlaces parameters ++ hintPlaces returnType
          ++ optionalBlockPlaces body

end

theorem Expr.mem_places (e : Expr) : ∃ inner, (e.span, inner) ∈ e.places := by
  cases e <;> exact ⟨_, by rw [Expr.places]; exact List.mem_cons_self⟩

end Codemod.Php
