import Codemod.Text.Splice

/-!
Tokens of PHP. Punctuation and keywords are told apart by their spelling, everything else by what
kind of text it is. `label` is the word by which messages name a kind.
-/

namespace Codemod.Php

inductive TokenKind where
  | inlineText
  | openTag
  | shortOpenTag
  | echoTag
  | closeTag
  | variable
  | identifier
  | qualifiedIdentifier
  | fullyQualifiedIdentifier
  | literalInteger
  | literalFloat
  | literalString
  /-- A quoted text whose closing quote is missing. -/
  | partialLiteralString (double : Bool)
  /-- Text between the interpolations of a string. -/
  | stringPart
  | documentStart
  | documentEnd
  /-- A type in parentheses, such as an integer cast. -/
  | cast (type : String)
  | keyword (word : String)
  | symbol (spelling : String)
  /-- Text that is no token, with the message that reading it gives. -/
  | invalid (message : String)
deriving DecidableEq, Repr, Inhabited

structure Token where
  kind : TokenKind
  span : Span
deriving DecidableEq, Repr, Inhabited

def keywordLabels : List (String × String) :=
  [("abstract", "Abstract"), ("and", "And"), ("array", "Array"), ("as", "As"),
    ("break", "Break"), ("callable", "Callable"), ("case", "Case"), ("catch", "Catch"),
    ("class", "Class"), ("clone", "Clone"), ("const", "Const"), ("continue", "Continue"),
    ("declare", "Declare"), ("default", "Default"), ("die", "Die"), ("do", "Do"),
    ("echo", "Echo"), ("else", "Else"), ("elseif", "ElseIf"), ("empty", "Empty"),
    ("enddeclare", "EndDeclare"), ("endfor", "EndFor"), ("endforeach", "EndForeach"),
    ("endif", "EndIf"), ("endswitch", "EndSwitch"), ("endwhile", "EndWhile"), ("enum", "Enum"),
    ("eval", "Eval"), ("exit", "Exit"), ("extends", "Extends"), ("false", "False"),
    ("final", "Final"), ("finally", "Finally"), ("fn", "Fn"), ("for", "For"),
    ("foreach", "Foreach"), ("from", "From"), ("function", "Function"), ("global", "Global"),
    ("goto", "Goto"), ("if", "If"), ("implements", "Implements"), ("include", "Include"),
    ("include_once", "IncludeOnce"), ("instanceof", "Instanceof"), ("insteadof", "Insteadof"),
    ("interface", "Interface"), ("isset", "Isset"), ("list", "List"), ("match", "Match"),
    ("namespace", "Namespace"), ("new", "New"), ("null", "Null"), ("or", "Or"),
    ("parent", "Parent"), ("print", "Print"), ("private", "Private"),
    ("protected", "Protected"), ("public", "Public"), ("readonly", "Readonly"),
    ("require", "Require"), ("require_once", "RequireOnce"), ("return", "Return"),
    ("self", "Self_"), ("static", "Static"), ("switch", "Switch"), ("throw", "Throw"),
    ("trait", "Trait"), ("true", "True"), ("try", "Try"), ("unset", "Unset"), ("use", "Use"),
    ("var", "Var"), ("while", "While"), ("xor", "Xor"), ("yield", "Yield"),
    ("__halt_compiler", "HaltCompiler"), ("__class__", "ClassConstant"),
    ("__dir__", "DirConstant"), ("__file__", "FileConstant"),
    ("__function__", "FunctionConstant"), ("__line__", "LineConstant"),
    ("__method__", "MethodConstant"), ("__namespace__", "NamespaceConstant"),
    ("__property__", "PropertyConstant"), ("__trait__", "TraitConstant")]

def writeVisibilityLabels : List (String × String) :=
  [("private(set)", "PrivateSet"), ("protected(set)", "ProtectedSet"),
    ("public(set)", "PublicSet")]

def symbolLabels : List (String × String) :=
  [("===", "EqualEqualEqual"), ("!==", "BangEqualEqual"), ("<=>", "LessThanEqualGreaterThan"),
    ("**=", "AsteriskAsteriskEqual"), ("...", "DotDotDot"), ("<<=", "LeftShiftEqual"),
    (">>=", "RightShiftEqual"), ("??=", "QuestionQuestionEqual"),
    ("?->", "QuestionMinusGreaterThan"),
    ("==", "EqualEqual"), ("!=", "BangEqual"), ("<>", "LessThanGreaterThan"),
    ("<=", "LessThanEqual"), (">=", "GreaterThanEqual"), ("&&", "AmpersandAmpersand"),
    ("||", "PipePipe"), ("??", "QuestionQuestion"), ("->", "MinusGreaterThan"),
    ("=>", "EqualGreaterThan"), ("::", "ColonColon"), ("++", "PlusPlus"), ("--", "MinusMinus"),
    ("+=", "PlusEqual"), ("-=", "MinusEqual"), ("*=", "AsteriskEqual"), ("/=", "SlashEqual"),
    (".=", "DotEqual"), ("%=", "PercentEqual"), ("&=", "AmpersandEqual"), ("|=", "PipeEqual"),
    ("^=", "CaretEqual"), ("<<", "LeftShift"), (">>", "RightShift"), ("**", "AsteriskAsterisk"),
    ("|>", "PipeGreaterThan"), ("#[", "HashLeftBracket"), ("$\x7b", "DollarLeftBrace"),
    (";", "Semicolon"), (",", "Comma"), (":", "Colon"), ("(", "LeftParenthesis"),
    (")", "RightParenthesis"), ("[", "LeftBracket"), ("]", "RightBracket"),
    ("\x7b", "LeftBrace"), ("\x7d", "RightBrace"), ("+", "Plus"), ("-", "Minus"),
    ("*", "Asterisk"), ("/", "Slash"), ("%", "Percent"), (".", "Dot"), ("=", "Equal"),
    ("<", "LessThan"), (">", "GreaterThan"), ("!", "Bang"), ("~", "Tilde"), ("^", "Caret"),
    ("&", "Ampersand"), ("|", "Pipe"), ("?", "Question"), ("@", "At"), ("$", "Dollar"),
    ("\\", "NamespaceSeparator"), ("\"", "DoubleQuote"), ("\x60", "Backtick")]

def castLabels : List (String × String) :=
  [("string", "StringCast"), ("binary", "BinaryCast"), ("int", "IntCast"),
    ("integer", "IntegerCast"), ("bool", "BoolCast"), ("boolean", "BooleanCast"),
    ("float", "FloatCast"), ("double", "DoubleCast"), ("real", "RealCast"),
    ("array", "ArrayCast"), ("object", "ObjectCast"), ("unset", "UnsetCast"),
    ("void", "VoidCast")]

namespace TokenKind

def label : TokenKind → String
  | .inlineText => "InlineText"
  | .openTag => "OpenTag"
  | .shortOpenTag => "ShortOpenTag"
  | .echoTag => "EchoTag"
  | .closeTag => "CloseTag"
  | .variable => "Variable"
  | .identifier => "Identifier"
  | .qualifiedIdentifier => "QualifiedIdentifier"
  | .fullyQualifiedIdentifier => "FullyQualifiedIdentifier"
  | .literalInteger => "LiteralInteger"
  | .literalFloat => "LiteralFloat"
  | .literalString => "LiteralString"
  | .partialLiteralString _ => "PartialLiteralString"
  | .stringPart => "StringPart"
  | .documentStart => "DocumentStart"
  | .documentEnd => "DocumentEnd"
  | .cast type => (castLabels.lookup type).getD type
  | .keyword word => ((keywordLabels ++ writeVisibilityLabels).lookup word).getD word
  | .symbol spelling => (symbolLabels.lookup spelling).getD spelling
  | .invalid message => message

-- A plain name or a keyword, either of which can name a member or label an argument.
def isIdentifier : TokenKind → Bool
  | .identifier => true
  | .keyword word => (keywordLabels.lookup word).isSome
  | _ => false

end TokenKind

end Codemod.Php
