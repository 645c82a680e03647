import Codemod.Php.Token
import Codemod.Text.Blank

/-!
Cutting a text into tokens. The reading mode says what the next characters are: text outside of
the tags, code, the inside of a string with interpolations, or the tail after the compiler halt.
Every lexeme takes at least one character; blanks and comments are dropped.
-/

namespace Codemod.Php

def isSpace (c : Char) : Bool :=
  c == ' ' || c == '\t' || c == '\n' || c == '\r' || c == '\x0c'

-- Letters and the underscore start a name in a string and the label of a document.
def isPlainNameStart (c : Char) : Bool :=
  c.isAlpha || c == '_'

-- In code everything outside ASCII starts a name, too.
def isNameStart (c : Char) : Bool :=
  isPlainNameStart c || 128 ≤ c.toNat

def isNamePart (c : Char) : Bool :=
  isNameStart c || c.isDigit

inductive HaltStage where
  | opening
  | closing
  | terminator
  | done
deriving DecidableEq, Repr

inductive Mode where
  | inline
  | script
  /-- Inside double quotes or backticks. -/
  | quoted (quote : Char)
  /-- Inside a document that ends at the label. -/
  | document (label : List Char) (interpolated : Bool)
  | halt (stage : HaltStage)
deriving DecidableEq, Repr

/-- One lexeme: its kind, where it is not dropped, its length in characters and the mode after. -/
structure Lexeme where
  kind : Option TokenKind
  length : Nat
  mode : Mode := .script

-- Length of a name with its qualifiers; a separator counts only before another name.
def nameLength : List Char → Nat
  | [] => 0
  | '\\' :: c :: rest => if isNameStart c then 2 + nameLength rest else 0
  | c :: rest => if isNamePart c then 1 + nameLength rest else 0

def nameLexeme (cs : List Char) : Lexeme :=
  let length := nameLength cs
  let name := cs.take length
  if name.head? == some '\\' then ⟨some .fullyQualifiedIdentifier, length, .script⟩
  else if name.contains '\\' then ⟨some .qualifiedIdentifier, length, .script⟩
  else
    let word := String.ofList (name.map Char.toLower)
    let rest := cs.drop length
    let setter := word ++ "(set)"
    if (writeVisibilityLabels.lookup setter).isSome && rest.take 5 == "(set)".toList then
      ⟨some (.keyword setter), length + 5, .script⟩
    else if word == "__halt_compiler" then ⟨some (.keyword word), length, .halt .opening⟩
    else if (keywordLabels.lookup word).isSome then ⟨some (.keyword word), length, .script⟩
    else ⟨some .identifier, length, .script⟩

-- Length of a run of digits; an underscore counts only before another digit.
def digitRun (isDigit : Char → Bool) : List Char → Nat
  | [] => 0
  | '_' :: d :: rest => if isDigit d then 2 + digitRun isDigit rest else 0
  | c :: rest => if isDigit c then 1 + digitRun isDigit rest else 0

def isBinaryDigit (c : Char) : Bool :=
  c == '0' || c == '1'

def isOctalDigit (c : Char) : Bool :=
  '0' ≤ c && c ≤ '7'

def isHexDigit (c : Char) : Bool :=
  c.isDigit || ('a' ≤ c && c ≤ 'f') || ('A' ≤ c && c ≤ 'F')

def markedDigit? (mark : Char) : Option (Char → Bool) :=
  match mark.toLower with
  | 'b' => some isBinaryDigit
  | 'o' => some isOctalDigit
  | 'x' => some isHexDigit
  | _ => none

def exponentLength : List Char → Nat
  | mark :: rest =>
      if mark == 'e' || mark == 'E' then
        let sign := match rest with
          | c :: _ => if c == '+' || c == '-' then 1 else 0
          | [] => 0
        match digitRun Char.isDigit (rest.drop sign) with
        | 0 => 0
        | digits + 1 => 1 + sign + digits + 1
      else 0
  | [] => 0

-- Whether an exponent stands right behind the digits before the point.
def startsExponent : List Char → Bool
  | mark :: '+' :: d :: _ | mark :: '-' :: d :: _ | mark :: d :: _ =>
      (mark == 'e' || mark == 'E') && d.isDigit
  | _ => false

-- Length of a fraction and an exponent behind digits; the digits of the fraction may miss.
def fractionLength : List Char → Nat
  | '.' :: tail =>
      let digits := digitRun Char.isDigit tail
      1 + digits + exponentLength (tail.drop digits)
  | cs => if startsExponent cs then exponentLength cs else 0

def decimalLexeme (cs : List Char) : Lexeme :=
  let whole := digitRun Char.isDigit cs
  match fractionLength (cs.drop whole) with
  | 0 => ⟨some .literalInteger, whole, .script⟩
  | fraction => ⟨some .literalFloat, whole + fraction, .script⟩

def numberLexeme (cs : List Char) : Lexeme :=
  match cs with
  | '0' :: mark :: digit :: tail =>
      match markedDigit? mark with
      | some isDigit =>
          if isDigit digit then
            ⟨some .literalInteger, 2 + digitRun isDigit (digit :: tail), .script⟩
          else decimalLexeme cs
      | none => decimalLexeme cs
  | _ => decimalLexeme cs

-- A comment to the end of the line, which a closing tag also ends.
def lineCommentLength : List Char → Nat
  | [] => 0
  | '?' :: '>' :: _ => 0
  | c :: rest => if c == '\n' || c == '\r' then 0 else 1 + lineCommentLength rest

def blockCommentLength? : List Char → Option Nat
  | [] => none
  | '*' :: '/' :: _ => some 2
  | _ :: rest => (blockCommentLength? rest).map (1 + ·)

def quotedLength? (quote : Char) : List Char → Option Nat
  | [] => none
  | '\\' :: _ :: rest => (quotedLength? quote rest).map (2 + ·)
  | c :: rest => if c == quote then some 1 else (quotedLength? quote rest).map (1 + ·)

-- Whether a double-quoted text holds no interpolation before its closing quote.
def isPlainQuoted : List Char → Bool
  | [] => true
  | '"' :: _ => true
  | '\\' :: _ :: rest => isPlainQuoted rest
  | '$' :: c :: rest =>
      if isPlainNameStart c || c == '{' then false else isPlainQuoted (c :: rest)
  | '{' :: '$' :: _ => false
  | _ :: rest => isPlainQuoted rest

def plainStringLexeme (quote : Char) (rest : List Char) : Lexeme :=
  match quotedLength? quote rest with
  | some length => ⟨some .literalString, 1 + length, .script⟩
  | none => ⟨some (.partialLiteralString (quote == '"')), 1 + rest.length, .script⟩

def bracketedLength : Nat → List Char → Nat
  | _, [] => 0
  | depth, c :: rest =>
      if c == ']' then
        match depth with
        | 0 => 1
        | depth + 1 => 1 + bracketedLength depth rest
      else if c == '[' then 1 + bracketedLength (depth + 1) rest
      else if isSpace c then 0
      else 1 + bracketedLength depth rest

def variableTailLength : List Char → Nat
  | '[' :: rest => 1 + bracketedLength 0 rest
  | '-' :: '>' :: c :: rest =>
      if isPlainNameStart c then 3 + (rest.takeWhile isNamePart).length else 0
  | '?' :: '-' :: '>' :: c :: rest =>
      if isPlainNameStart c then 4 + (rest.takeWhile isNamePart).length else 0
  | _ => 0

def bracedLength : Nat → List Char → Nat
  | _, [] => 0
  | depth, c :: rest =>
      if c == '}' then
        match depth with
        | 0 => 1
        | depth + 1 => 1 + bracedLength depth rest
      else if c == '{' then 1 + bracedLength (depth + 1) rest
      else 1 + bracedLength depth rest

def interpolationLength? : List Char → Option Nat
  | '$' :: '{' :: rest => some (2 + bracedLength 0 rest)
  | '{' :: '$' :: rest => some (2 + bracedLength 0 rest)
  | '$' :: c :: rest =>
      if isPlainNameStart c then
        let name := (rest.takeWhile isNamePart).length
        some (2 + name + variableTailLength (rest.drop name))
      else none
  | _ => none

def quotedPartLength (quote : Char) : List Char → Nat
  | [] => 0
  | ['\\'] => 1
  | '\\' :: _ :: rest => 2 + quotedPartLength quote rest
  | c :: rest =>
      if c == quote || (interpolationLength? (c :: rest)).isSome then 0
      else 1 + quotedPartLength quote rest

def isLineBreak (c : Char) : Bool :=
  c == '\n' || c == '\r'

def lineBreakLength : List Char → Nat
  | '\r' :: '\n' :: _ => 2
  | c :: _ => if isLineBreak c then 1 else 0
  | [] => 0

/-- The line break behind the label that opens a document; a carriage return alone is none. -/
def openingBreakLength : List Char → Nat
  | '\r' :: '\n' :: _ => 2
  | '\n' :: _ => 1
  | _ => 0

/-- The opening of a document: its length with the line break, its label, and whether it is
interpolated. -/
def documentStart? (cs : List Char) : Option (Nat × List Char × Bool) :=
  match cs with
  | '<' :: '<' :: '<' :: rest =>
      let blanks := (rest.takeWhile isSpace).length
      let rest := rest.drop blanks
      let quote := match rest with
        | c :: _ => if c == '\'' || c == '"' then some c else none
        | [] => none
      let body := rest.drop quote.toList.length
      let label := match body with
        | c :: _ => if isPlainNameStart c then body.takeWhile isNamePart else []
        | [] => []
      let after := body.drop label.length
      let closed := match quote with
        | none => some 0
        | some q => if after.head? == some q then some 1 else none
      match closed with
      | none => none
      | some closing =>
          let ending := openingBreakLength (after.drop closing)
          if label.isEmpty || ending == 0 then none
          else
            some (3 + blanks + quote.toList.length + label.length + closing + ending, label,
              quote != some '\'')
  | _ => none

-- The label that closes a document, after blanks only; it must not run on.
def documentEndLength? (label cs : List Char) : Option Nat :=
  let blanks := (cs.takeWhile fun c => isSpace c && !isLineBreak c).length
  let rest := cs.drop blanks
  let after := rest.drop label.length
  let runsOn := match after with
    | c :: _ => c.isAlphanum
    | [] => false
  if rest.take label.length == label && !runsOn then some (blanks + label.length) else none

-- Characters of a document line, with its line break, before the next interpolation.
def documentPartLength (interpolated : Bool) : List Char → Nat
  | [] => 0
  | ['\\'] => 1
  | '\\' :: d :: rest =>
      if isLineBreak d then 1 + lineBreakLength (d :: rest)
      else 2 + documentPartLength interpolated rest
  | c :: rest =>
      if isLineBreak c then lineBreakLength (c :: rest)
      else if interpolated && (interpolationLength? (c :: rest)).isSome then 0
      else 1 + documentPartLength interpolated rest

-- Length of a text that spells the given lower-case characters in any case, with blanks before any
-- of them.
def spelledLength? : List Char → List Char → Option Nat
  | [], _ => some 0
  | _ :: _, [] => none
  | d :: spelling, c :: rest =>
      if isSpace c then (spelledLength? (d :: spelling) rest).map (1 + ·)
      else if c.toLower == d then (spelledLength? spelling rest).map (1 + ·)
      else none

-- A cast: a type in parentheses, blanks allowed anywhere inside.
def castLexeme? (cs : List Char) : Option Lexeme :=
  castLabels.findSome? fun (type, _) =>
    (spelledLength? ('(' :: type.toList ++ [')']) cs).map fun length =>
      ⟨some (.cast type), length, .script⟩

def characterMessage (what : String) (c : Char) : String :=
  let digits := (Nat.toDigits 16 c.toNat).map Char.toUpper
  let code := String.ofList (List.replicate (2 - digits.length) '0' ++ digits)
  s!"{what} \x60{c}\x60 (0x{code})"

def symbolLexeme? (cs : List Char) : Option Lexeme :=
  (symbolLabels.find? fun entry => entry.1.toList.isPrefixOf cs).map fun entry =>
    ⟨some (.symbol entry.1), entry.1.length, .script⟩

def symbolLexeme (c : Char) (cs : List Char) : Lexeme :=
  match symbolLexeme? cs with
  | some lexeme => lexeme
  | none => ⟨some (.invalid (characterMessage "Unrecognised token" c)), 1, .script⟩

def scriptLexeme (c : Char) (rest : List Char) : Lexeme :=
  let cs := c :: rest
  if isSpace c then ⟨none, (cs.takeWhile isSpace).length, .script⟩
  else if isNameStart c then nameLexeme cs
  else if c.isDigit then numberLexeme cs
  else
    match cs with
    | '#' :: '[' :: _ => symbolLexeme c cs
    | '#' :: tail => ⟨none, 1 + lineCommentLength tail, .script⟩
    | '/' :: '/' :: tail => ⟨none, 2 + lineCommentLength tail, .script⟩
    | '/' :: '*' :: tail =>
        match blockCommentLength? tail with
        | some length => ⟨none, 2 + length, .script⟩
        | none => ⟨some (.invalid "Unexpected end of file"), cs.length, .script⟩
    | '?' :: '>' :: _ => ⟨some .closeTag, 2, .inline⟩
    | '$' :: d :: tail =>
        if isNameStart d then
          ⟨some .variable, 2 + (tail.takeWhile isNamePart).length, .script⟩
        else symbolLexeme c cs
    | '.' :: d :: tail =>
        if d.isDigit then
          let digits := 2 + digitRun Char.isDigit tail
          ⟨some .literalFloat, digits + exponentLength (cs.drop digits), .script⟩
        else symbolLexeme c cs
    | '\'' :: tail => plainStringLexeme '\'' tail
    | '"' :: tail =>
        if isPlainQuoted tail then plainStringLexeme '"' tail
        else ⟨some (.symbol "\""), 1, .quoted '"'⟩
    | '\x60' :: _ => ⟨some (.symbol "\x60"), 1, .quoted '\x60'⟩
    | '\\' :: d :: _ => if isNameStart d then nameLexeme cs else symbolLexeme c cs
    | '(' :: _ => (castLexeme? cs).getD (symbolLexeme c cs)
    | _ =>
        match documentStart? cs with
        | some (length, label, interpolated) =>
            ⟨some .documentStart, length, .document label interpolated⟩
        | none => symbolLexeme c cs

def inlineLength : List Char → Nat
  | [] => 0
  | '<' :: '?' :: _ => 0
  | _ :: rest => 1 + inlineLength rest

def inlineLexeme (cs : List Char) : Lexeme :=
  match cs with
  | '<' :: '?' :: rest =>
      if (rest.take 3).map Char.toLower == ['p', 'h', 'p'] then ⟨some .openTag, 5, .script⟩
      else if rest.head? == some '=' then ⟨some .echoTag, 3, .script⟩
      else ⟨some .shortOpenTag, 2, .script⟩
  | _ => ⟨some .inlineText, inlineLength cs, .inline⟩

/-- After the compiler halt only an empty argument list and a terminator are code. -/
def haltLexeme (stage : HaltStage) (c : Char) (rest : List Char) : Lexeme :=
  let refused : Lexeme :=
    ⟨some (.invalid (characterMessage "Unexpected token" c)), 1, .halt stage⟩
  if stage != .done && isSpace c then
    ⟨none, ((c :: rest).takeWhile isSpace).length, .halt stage⟩
  else
    match stage with
    | .opening => if c == '(' then ⟨some (.symbol "("), 1, .halt .closing⟩ else refused
    | .closing => if c == ')' then ⟨some (.symbol ")"), 1, .halt .terminator⟩ else refused
    | .terminator =>
        if c == ';' then ⟨some (.symbol ";"), 1, .halt .done⟩
        else if c == '?' && rest.head? == some '>' then ⟨some .closeTag, 2, .halt .done⟩
        else refused
    | .done => ⟨some .inlineText, 1 + rest.length, .halt .done⟩

/-- Where the reading stands: characters left, their offset, the mode, and for each interpolation
that is open the offset where it ends with the mode to go back to. -/
structure Reading where
  rest : List Char
  offset : Nat
  mode : Mode
  resume : List (Nat × Mode) := []

def leave (offset : Nat) (mode : Mode) : List (Nat × Mode) → Mode × List (Nat × Mode)
  | [] => (mode, [])
  | (stop, outer) :: rest =>
      if stop ≤ offset then leave offset outer rest else (mode, (stop, outer) :: rest)

def Reading.enter (reading : Reading) (length : Nat) : Reading :=
  let stop := reading.offset + Text.byteLength (reading.rest.take length)
  { reading with mode := .script, resume := (stop, reading.mode) :: reading.resume }

def Reading.lexeme (reading : Reading) (c : Char) (rest : List Char) : Lexeme ⊕ Nat :=
  let cs := c :: rest
  match reading.mode with
  | .script => .inl (scriptLexeme c rest)
  | .inline => .inl (inlineLexeme cs)
  | .halt stage => .inl (haltLexeme stage c rest)
  | .quoted quote =>
      if c == quote then .inl ⟨some (.symbol (String.ofList [c])), 1, .script⟩
      else
        match interpolationLength? cs with
        | some length => .inr length
        | none => .inl ⟨some .stringPart, quotedPartLength quote cs, .quoted quote⟩
  | .document label interpolated =>
      match documentEndLength? label cs with
      | some length => .inl ⟨some .documentEnd, length, .script⟩
      | none =>
          match (if interpolated then interpolationLength? cs else none) with
          | some length => .inr length
          | none =>
              .inl ⟨some .stringPart, documentPartLength interpolated cs,
                .document label interpolated⟩

def tokensFrom : Nat → Reading → List Token
  | 0, _ => []
  | steps + 1, reading =>
      match reading.rest with
      | [] => []
      | c :: rest =>
          match reading.lexeme c rest with
          | .inr length => tokensFrom steps (reading.enter length)
          | .inl lexeme =>
              let taken := reading.rest.take (max 1 lexeme.length)
              let stop := reading.offset + Text.byteLength taken
              let (mode, resume) := leave stop lexeme.mode reading.resume
              let next : Reading :=
                { rest := reading.rest.drop (max 1 lexeme.length), offset := stop, mode, resume }
              match lexeme.kind with
              | some kind =>
                  -- A comment without an end is an error where the text ends.
                  let span : Span := match kind with
                    | .invalid "Unexpected end of file" => ⟨stop, stop⟩
                    | _ => ⟨reading.offset, stop⟩
                  { kind, span } :: tokensFrom steps next
              | none => tokensFrom steps next

-- Length of a first line that names an interpreter, with its line break.
def interpreterLength : List Char → Nat
  | '#' :: '!' :: rest =>
      let line := (rest.takeWhile (· != '\n')).length
      2 + line + (rest.drop line).length.min 1
  | _ => 0

/-- All tokens of a text. Two steps to a character are enough: one may enter an interpolation. -/
def tokenize (source : String) : List Token :=
  let cs := source.toList
  let interpreter := cs.take (interpreterLength cs)
  let offset := Text.byteLength interpreter
  let tokens := tokensFrom (2 * cs.length + 2)
    { rest := cs.drop interpreter.length, offset, mode := .inline }
  if offset == 0 then tokens else { kind := .inlineText, span := ⟨0, offset⟩ } :: tokens

end Codemod.Php
