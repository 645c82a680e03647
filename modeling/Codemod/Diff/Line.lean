/-!
Lines of a text. A line keeps its end: a line feed, a carriage return, or both in this order. Only
a last line may have none.
-/

namespace Codemod.Diff

def consLine (c : Char) : List (List Char) → List (List Char)
  | [] => [[c]]
  | line :: rest => (c :: line) :: rest

def splitLines : List Char → List (List Char)
  | [] => []
  | '\r' :: '\n' :: cs => ['\r', '\n'] :: splitLines cs
  | c :: cs => if c = '\n' ∨ c = '\r' then [c] :: splitLines cs else consLine c (splitLines cs)

def lines (text : String) : List String :=
  (splitLines text.toList).map String.ofList

def isTerminated (line : String) : Bool :=
  match line.toList.getLast? with
  | some c => c == '\n' || c == '\r'
  | none => false

theorem flatten_consLine (c : Char) (rest : List (List Char)) :
    (consLine c rest).flatten = c :: rest.flatten := by
  cases rest <;> simp [consLine]

/-- Nothing is lost and nothing added. -/
theorem flatten_splitLines (cs : List Char) : (splitLines cs).flatten = cs := by
  fun_induction splitLines cs with
  | case1 => rfl
  | case2 cs ih => simp [ih]
  | case3 c cs _ _ ih => simp [ih]
  | case4 c cs _ _ ih => rw [flatten_consLine, ih]

end Codemod.Diff
