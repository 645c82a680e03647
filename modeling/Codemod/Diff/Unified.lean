import Codemod.Diff.Block

/-!
Differences as text: hunks of changes with three lines of context, and the bare changed lines.
-/

namespace Codemod.Diff

def context : Nat := 3

def lastLines : Block → Block
  | .equal old new length =>
      .equal (old + (length - context)) (new + (length - context)) (min length context)
  | changed => changed

def firstLines : Block → Block
  | .equal old new length => .equal old new (min length context)
  | changed => changed

def trimEnds (blocks : List Block) : List Block :=
  let blocks := match blocks with
    | first :: rest => lastLines first :: rest
    | [] => []
  match blocks.getLast? with
  | some last => blocks.dropLast ++ [firstLines last]
  | none => []

/-- Cut at kept runs that are longer than two contexts; `pending` are the blocks of the hunk on
the way, latest first. -/
def cutHunks : List Block → List Block → List (List Block)
  | pending, [] =>
      match pending with
      | [] | [.equal ..] => []
      | _ => [pending.reverse]
  | pending, block :: rest =>
      match block with
      | .equal _ _ length =>
          if 2 * context < length then
            (firstLines block :: pending).reverse :: cutHunks [lastLines block] rest
          else cutHunks (block :: pending) rest
      | .changed .. => cutHunks (block :: pending) rest

def hunks (blocks : List Block) : List (List Block) :=
  cutHunks [] (trimEnds blocks)

/-- Range of lines, counted from one. The length is left out where it is one; an empty range
names the line before it. -/
def rangeText (start stop : Nat) : String :=
  let length := stop - start
  if length = 1 then s!"{start + 1}"
  else if length = 0 then s!"{start},0"
  else s!"{start + 1},{length}"

def header (first last : Block) : String :=
  s!"@@ -{rangeText first.oldStart last.oldStop} +{rangeText first.newStart last.newStop} @@"

inductive Mark where
  | kept
  | deleted
  | inserted
deriving DecidableEq, Repr

def Mark.sign : Mark → String
  | .kept => " "
  | .deleted => "-"
  | .inserted => "+"

def marked (old new : List String) : Block → List (Mark × String)
  | .equal start _ length => (range old start length).map fun line => (.kept, line)
  | .changed start length index count =>
      ((range old start length).map fun line => (.deleted, line))
        ++ (range new index count).map fun line => (.inserted, line)

/-- A line of a hunk. A line without an end of its own is given one, and an empty line after it. -/
def hunkLine (mark : Mark) (line : String) : String :=
  mark.sign ++ line ++ (if isTerminated line then "" else "\n\n")

def hunkText (old new : List String) (blocks : List Block) : String :=
  match blocks, blocks.getLast? with
  | first :: _, some last =>
      header first last ++ "\n"
        ++ String.join ((blocks.flatMap (marked old new)).map fun (mark, line) =>
          hunkLine mark line)
  | _, _ => ""

def unified (path old new : String) : String :=
  let oldLines := lines old
  let newLines := lines new
  s!"--- a/{path}\n+++ b/{path}\n"
    ++ String.join ((hunks (blocks oldLines newLines)).map (hunkText oldLines newLines))

def changedLines (old new : String) : List (Mark × String) :=
  let oldLines := lines old
  let newLines := lines new
  ((blocks oldLines newLines).flatMap (marked oldLines newLines)).filter fun entry =>
    entry.1 != .kept

end Codemod.Diff
