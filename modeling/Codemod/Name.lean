import Codemod.Text.Blank

/-!
Names of functions, methods and classes. They compare without case and without leading
separators; tables that are looked up by name give each name one entry.
-/

namespace Codemod

namespace Name

def fold (name : String) : String :=
  Text.lower (String.ofList (name.toList.dropWhile (· == '\\')))

def same (a b : String) : Bool :=
  fold a == fold b

def isQualified (name : String) : Bool :=
  name.toList.head? == some '\\'

/-- How a class is written where it is used: a name with separators is fully qualified, so that
it means the same in every namespace. -/
def reference (name : String) : String :=
  if name.toList.contains '\\' && !isQualified name then "\\" ++ name else name

theorem same_iff {a b : String} : same a b = true ↔ fold a = fold b := by
  simp [same]

end Name

abbrev NameTable := List (String × String)

namespace NameTable

def least? : NameTable → Option (String × String)
  | [] => none
  | entry :: rest =>
      match least? rest with
      | none => some entry
      | some other => if other.1 < entry.1 then some other else some entry

/-- The text for a name: the entry spelled exactly so, else the least of those that name the
same. -/
def find? (table : NameTable) (name : String) : Option String :=
  match table.lookup name with
  | some text => some text
  | none => (least? (table.filter fun entry => Name.same entry.1 name)).map Prod.snd

-- The first of the given names that a later one repeats, with that one.
def clash? : List String → Option (String × String)
  | [] => none
  | name :: rest =>
      match rest.find? (Name.same name) with
      | some other => some (name, other)
      | none => clash? rest

def clashing? (table : NameTable) : Option (String × String) :=
  clash? ((table.map Prod.fst).mergeSort fun a b => decide (a ≤ b))

end NameTable

end Codemod
