/-!
Dates and times of TOML. Only days that the calendar has and times that a clock shows are read.
One text is written for each moment, whatever separator, letter case or zeros it was read with.
-/

namespace Codemod.Toml

structure Date where
  year : Nat
  month : Nat
  day : Nat
deriving DecidableEq, Repr

-- A time of day; the second 60 is a leap second.
structure Time where
  hour : Nat
  minute : Nat
  second : Nat
  nanosecond : Nat
deriving DecidableEq, Repr

inductive Zone where
  | utc
  /-- So many minutes ahead of UTC. -/
  | ahead (minutes : Int)
deriving DecidableEq, Repr

inductive Moment where
  | date (date : Date)
  | time (time : Time)
  | timed (date : Date) (time : Time) (zone : Option Zone)
deriving DecidableEq, Repr

def digitsValue (cs : List Char) : Nat :=
  cs.foldl (fun value c => 10 * value + (c.toNat - '0'.toNat)) 0

def between? (least most : Nat) (cs : List Char) : Option Nat :=
  let value := digitsValue cs
  if cs.all Char.isDigit ∧ least ≤ value ∧ value ≤ most then some value else none

def isLeap (year : Nat) : Bool :=
  year % 4 == 0 && (year % 100 != 0 || year % 400 == 0)

def daysIn (year month : Nat) : Nat :=
  if month == 2 then if isLeap year then 29 else 28
  else if [4, 6, 9, 11].contains month then 30
  else 31

def Date.ofChars? : List Char → Option Date
  | [a, b, c, d, '-', e, f, '-', g, h] => do
      let year ← between? 0 9999 [a, b, c, d]
      let month ← between? 1 12 [e, f]
      let day ← between? 1 (daysIn year month) [g, h]
      return { year, month, day }
  | _ => none

-- Nanoseconds of the fraction that ends a time; further digits are cut off.
def nanoseconds? : List Char → Option Nat
  | [] => some 0
  | '.' :: digits =>
      if digits ≠ [] ∧ digits.all Char.isDigit then
        some (digitsValue ((digits ++ List.replicate 9 '0').take 9))
      else none
  | _ => none

def Time.ofChars? : List Char → Option Time
  | a :: b :: ':' :: c :: d :: ':' :: e :: f :: fraction => do
      let hour ← between? 0 23 [a, b]
      let minute ← between? 0 59 [c, d]
      let second ← between? 0 60 [e, f]
      let nanosecond ← nanoseconds? fraction
      return { hour, minute, second, nanosecond }
  | _ => none

def Zone.ofChars? : List Char → Option Zone
  | ['Z'] | ['z'] => some .utc
  | [sign, a, b, ':', c, d] => do
      let hours ← between? 0 23 [a, b]
      let minutes ← between? 0 59 [c, d]
      let distance : Int := 60 * hours + minutes
      match sign with
      | '+' => some (.ahead distance)
      | '-' => some (.ahead (-distance))
      | _ => none
  | _ => none

def zonedTime? (cs : List Char) : Option (Time × Option Zone) := do
  let isClock (c : Char) : Bool := c.isDigit || c == ':' || c == '.'
  let time ← Time.ofChars? (cs.takeWhile isClock)
  match cs.dropWhile isClock with
  | [] => return (time, none)
  | zone => return (time, some (← Zone.ofChars? zone))

def Moment.ofChars? (cs : List Char) : Option Moment :=
  match Date.ofChars? cs, Time.ofChars? cs with
  | some day, _ => some (.date day)
  | none, some clock => some (.time clock)
  | none, none => do
      let day ← Date.ofChars? (cs.take 10)
      match cs.drop 10 with
      | separator :: rest =>
          if separator == 'T' || separator == 't' || separator == ' ' then
            let (clock, zone) ← zonedTime? rest
            return .timed day clock zone
          else none
      | [] => none

def padded (width value : Nat) : String :=
  let digits := Nat.toDigits 10 value
  String.ofList (List.replicate (width - digits.length) '0' ++ digits)

def Date.text (date : Date) : String :=
  padded 4 date.year ++ "-" ++ padded 2 date.month ++ "-" ++ padded 2 date.day

def Time.text (time : Time) : String :=
  let fraction := (padded 9 time.nanosecond).toList.reverse.dropWhile (· == '0')
  padded 2 time.hour ++ ":" ++ padded 2 time.minute ++ ":" ++ padded 2 time.second
    ++ (if fraction.isEmpty then "" else "." ++ String.ofList fraction.reverse)

def Zone.text : Zone → String
  | .utc => "Z"
  | .ahead minutes =>
      let distance := minutes.natAbs
      (if minutes < 0 then "-" else "+")
        ++ padded 2 (distance / 60) ++ ":" ++ padded 2 (distance % 60)

def Moment.text : Moment → String
  | .date day => day.text
  | .time clock => clock.text
  | .timed day clock zone =>
      day.text ++ "T" ++ clock.text ++ (zone.map Zone.text).getD ""

end Codemod.Toml
