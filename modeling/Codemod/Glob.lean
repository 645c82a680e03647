/-!
Path patterns. `?` stands for one character, `*` for any run of characters, separators included,
`**` as a whole component for any number of components, and brackets for one character of a set.
Other spellings with `**` or an open bracket are no patterns.
-/

namespace Codemod.Glob

structure CharRange where
  first : Char
  last : Char
deriving DecidableEq, Repr

inductive Token where
  | char (c : Char)
  | anyChar
  | anySequence
  | anyComponents
  | within (ranges : List CharRange)
  | except (ranges : List CharRange)
deriving DecidableEq, Repr

def ranges : List Char → List CharRange
  | first :: '-' :: last :: rest => ⟨first, last⟩ :: ranges rest
  | c :: rest => ⟨c, c⟩ :: ranges rest
  | [] => []

/-- The characters of a set and what follows its closing bracket. The first character belongs to
the set even if it is a bracket. -/
def charSet? : List Char → Option (List Char × List Char)
  | [] => none
  | first :: rest =>
      match rest.dropWhile (· != ']') with
      | _ :: after => some (first :: rest.takeWhile (· != ']'), after)
      | [] => none

def bracket? : List Char → Option (Token × List Char)
  | '!' :: rest => (charSet? rest).map fun (chars, after) => (.except (ranges chars), after)
  | rest => (charSet? rest).map fun (chars, after) => (.within (ranges chars), after)

/-- Tokens of a pattern, for as many as there are steps; `opens` says whether a component starts
here. Whole components of any number that follow each other count once, unless they start the
pattern. -/
def tokens : Nat → Bool → List Token → List Char → Option (List Token)
  | _, _, done, [] => some done.reverse
  | 0, _, _, _ => none
  | steps + 1, opens, done, c :: rest =>
      match c with
      | '?' => tokens steps false (.anyChar :: done) rest
      | '*' =>
          let stars := rest.takeWhile (· == '*')
          let after := rest.dropWhile (· == '*')
          let components :=
            if 1 < done.length ∧ done.head? = some .anyComponents then done
            else .anyComponents :: done
          match stars, opens, after with
          | [], _, _ => tokens steps false (.anySequence :: done) after
          | [_], true, [] => some components.reverse
          | [_], true, '/' :: after => tokens steps true components after
          | _, _, _ => none
      | '[' =>
          match bracket? rest with
          | some (token, after) => tokens steps false (token :: done) after
          | none => none
      | c => tokens steps (c == '/') (.char c :: done) rest

def parse? (pattern : String) : Option (List Token) :=
  tokens pattern.toList.length true [] pattern.toList

def Token.takes : Token → Char → Bool
  | .char expected, c => expected == c
  | .within ranges, c => ranges.any fun range => range.first ≤ c && c ≤ range.last
  | .except ranges, c => !ranges.any fun range => range.first ≤ c && c ≤ range.last
  | _, _ => true

def ends : List Char → List (List Char)
  | [] => [[]]
  | c :: cs => (c :: cs) :: ends cs

def componentEnds : List Char → List (List Char)
  | [] => [[]]
  | c :: cs => if c = '/' then cs :: componentEnds cs else componentEnds cs

def takesAll : List Token → List Char → Bool
  | [], cs => cs.isEmpty
  | .anySequence :: rest, cs => (ends cs).any (takesAll rest)
  | .anyComponents :: rest, cs => (cs :: componentEnds cs).any (takesAll rest)
  | _ :: _, [] => false
  | token :: rest, c :: cs => token.takes c && takesAll rest cs

/-! ### Matching in a table

Trying every run for every wildcard takes too long where they are many. The answers for all ends
of a text are therefore found together, from the last token of the pattern to the first.
-/

def orShorter : List Bool → List Bool
  | [] => []
  | taken :: rest =>
      let rest := orShorter rest
      (taken || rest.headD false) :: rest

def afterComponents : List Char → List Bool → List Bool
  | c :: cs, _ :: taken =>
      let rest := afterComponents cs taken
      ((c == '/' && taken.headD false) || rest.headD false) :: rest
  | _, taken => taken

def afterChar (token : Token) : List Char → List Bool → List Bool
  | c :: cs, _ :: taken => (token.takes c && taken.headD false) :: afterChar token cs taken
  | _, _ => [false]

def takenEnds (cs : List Char) : List Token → List Bool
  | [] => (ends cs).map List.isEmpty
  | .anySequence :: rest => orShorter (takenEnds cs rest)
  | .anyComponents :: rest =>
      let taken := takenEnds cs rest
      List.zipWith or taken (afterComponents cs taken)
  | token :: rest => afterChar token cs (takenEnds cs rest)

@[simp]
theorem head?_ends (cs : List Char) : (ends cs).head? = some cs := by
  cases cs <;> rfl

theorem orShorter_map_ends (f : List Char → Bool) (cs : List Char) :
    orShorter ((ends cs).map f) = (ends cs).map fun cs => (ends cs).any f := by
  induction cs with
  | nil => simp [ends, orShorter]
  | cons c cs ih => simp [ends, orShorter, ih]

theorem afterComponents_map_ends (f : List Char → Bool) (cs : List Char) :
    afterComponents cs ((ends cs).map f) = (ends cs).map fun cs => (componentEnds cs).any f := by
  induction cs with
  | nil => simp [ends, afterComponents, componentEnds]
  | cons c cs ih =>
      by_cases slash : c = '/' <;>
        simp [ends, afterComponents, componentEnds, ih, slash]

theorem afterChar_map_ends (token : Token) (f : List Char → Bool) (cs : List Char) :
    afterChar token cs ((ends cs).map f) = (ends cs).map fun
      | [] => false
      | c :: cs => token.takes c && f cs := by
  induction cs with
  | nil => simp [ends, afterChar]
  | cons c cs ih => simp [ends, afterChar, ih]

/-- The table holds the answer for each end of the text. -/
theorem takenEnds_eq_map (cs : List Char) (tokens : List Token) :
    takenEnds cs tokens = (ends cs).map (takesAll tokens) := by
  induction tokens with
  | nil =>
      refine List.map_congr_left fun rest _ => ?_
      simp [takesAll]
  | cons token tokens ih =>
      cases token with
      | anySequence =>
          simp only [takenEnds, ih, orShorter_map_ends]
          exact List.map_congr_left fun rest _ => by simp [takesAll]
      | anyComponents =>
          simp only [takenEnds, ih, afterComponents_map_ends, List.zipWith_map, List.zipWith_self]
          exact List.map_congr_left fun rest _ => by simp [takesAll]
      | _ =>
          simp only [takenEnds, ih, afterChar_map_ends]
          exact List.map_congr_left fun rest _ => by cases rest <;> simp [takesAll]

/-- Whether a pattern stands for a path. What is no pattern stands for none. -/
def accepts (pattern path : String) : Bool :=
  match parse? pattern with
  | some tokens => (takenEnds path.toList tokens).headD false
  | none => false

/-- A pattern stands for a path where its tokens take the whole of it. -/
theorem accepts_eq (pattern path : String) :
    accepts pattern path = (parse? pattern).any (takesAll · path.toList) := by
  unfold accepts
  cases parse? pattern <;> simp [takenEnds_eq_map]

end Codemod.Glob
