import Codemod.Toml.Text
import Codemod.Toml.Value

/-!
Numbers, truth values and moments of TOML, told apart by their spelling.
-/

namespace Codemod.Toml

-- Digits with single underscores between them, as their values.
def digits? (digit? : Char → Option Nat) : List Char → Option (List Nat)
  | [] => none
  | [c] => (digit? c).map fun value => [value]
  | c :: '_' :: rest => do return (← digit? c) :: (← digits? digit? rest)
  | c :: rest => do return (← digit? c) :: (← digits? digit? rest)

def digitBelow (base : Nat) (c : Char) : Option Nat :=
  (hexDigit? c).filter (· < base)

def natural? (base : Nat) (cs : List Char) : Option Nat :=
  (digits? (digitBelow base) cs).map fun values =>
    values.foldl (fun value digit => base * value + digit) 0

def decimal? : List Char → Option Nat
  | ['0'] => some 0
  | '0' :: _ => none
  | cs => natural? 10 cs

def inRange (value : Int) : Option Int :=
  if Int64.minValue.toInt ≤ value ∧ value ≤ Int64.maxValue.toInt then some value else none

def integer? : List Char → Option Int
  | '0' :: 'x' :: rest => (natural? 16 rest).bind fun value => inRange value
  | '0' :: 'o' :: rest => (natural? 8 rest).bind fun value => inRange value
  | '0' :: 'b' :: rest => (natural? 2 rest).bind fun value => inRange value
  | '+' :: rest => (decimal? rest).bind fun value => inRange value
  | '-' :: rest => (decimal? rest).bind fun value => inRange (-value)
  | rest => (decimal? rest).bind fun value => inRange value

def dropSign : List Char → List Char
  | '+' :: rest => rest
  | '-' :: rest => rest
  | rest => rest

def isExponentMark (c : Char) : Bool :=
  c == 'e' || c == 'E'

def signed? : List Char → Option Int
  | '-' :: rest => (natural? 10 rest).map fun value => -value
  | '+' :: rest => (natural? 10 rest).map fun value => value
  | rest => (natural? 10 rest).map fun value => value

/-- A decimal without a sign that has a fraction or an exponent: its digits as one number, and
the power of ten to multiply it by. -/
def scientific? (cs : List Char) : Option (Nat × Int) := do
  let mantissa := cs.takeWhile fun c => !isExponentMark c
  let exponent := cs.dropWhile fun c => !isExponentMark c
  let whole := mantissa.takeWhile (· != '.')
  let fraction := mantissa.dropWhile (· != '.')
  let first ← decimal? whole
  let places ← if fraction.isEmpty then some [] else digits? (digitBelow 10) (fraction.drop 1)
  let power ← if exponent.isEmpty then some 0 else signed? (exponent.drop 1)
  if fraction.isEmpty && exponent.isEmpty then none
  else some (places.foldl (fun value digit => 10 * value + digit) first, power - places.length)

-- The least number that rounds to infinity in double precision.
def infinityThreshold : Nat :=
  Nat.pow 2 1024 - Nat.pow 2 970

/-- Whether the digits, multiplied by a power of ten, round to infinity. The threshold has 309
digits, so fewer or more of them settle the matter. -/
def roundsToInfinity (digits : Nat) (power : Int) : Bool :=
  let size : Int := (Nat.toDigits 10 digits).length + power
  if digits == 0 || size < 309 then false
  else if 309 < size then true
  else infinityThreshold * Nat.pow 10 (-power).toNat ≤ digits * Nat.pow 10 power.toNat

/-- A decimal with a fraction or an exponent, or a value that is no number. A positive decimal
must not round to infinity. -/
def isFloat (cs : List Char) : Bool :=
  let magnitude := dropSign cs
  magnitude == "inf".toList || magnitude == "nan".toList ||
    match scientific? magnitude with
    | some (digits, power) => cs.head? == some '-' || !roundsToInfinity digits power
    | none => false

def isScalarChar (c : Char) : Bool :=
  c.isAlphanum || c == '_' || c == '+' || c == '-' || c == '.' || c == ':'

-- The characters of a scalar and what follows. A date may be followed by a blank and a time.
def scalarText (cs : List Char) : List Char × List Char :=
  let word := cs.takeWhile isScalarChar
  match (Date.ofChars? word).isSome, cs.dropWhile isScalarChar with
  | true, ' ' :: rest =>
      let clock := rest.takeWhile isScalarChar
      if clock.isEmpty then (word, ' ' :: rest)
      else (word ++ ' ' :: clock, rest.dropWhile isScalarChar)
  | _, rest => (word, rest)

def scalarValue? (cs : List Char) : Option Value :=
  if cs = "true".toList then some (.bool true)
  else if cs = "false".toList then some (.bool false)
  else
    match integer? cs with
    | some value => some (.integer value)
    | none =>
        if isFloat cs then some (.float (String.ofList cs))
        else (Moment.ofChars? cs).map .moment

end Codemod.Toml
