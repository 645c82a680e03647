import Codemod.Name

/-!
Known classes and the members they declare. Class names compare without case and without leading
separators; a later entry for the same class wins.
-/

namespace Codemod

structure Symbols where
  classes : List (String × List String) := []
deriving Repr

namespace Symbols

def insert (symbols : Symbols) (className : String) (members : List String) : Symbols :=
  let key := Name.fold className
  ⟨(key, members) :: symbols.classes.filter fun entry => entry.1 != key⟩

def ofList (entries : List (String × List String)) : Symbols :=
  entries.foldl (fun symbols entry => symbols.insert entry.1 entry.2) {}

def size (symbols : Symbols) : Nat :=
  symbols.classes.length

def classMembers? (symbols : Symbols) (name : String) : Option (List String) :=
  symbols.classes.lookup (Name.fold name)

def hasClass (symbols : Symbols) (name : String) : Bool :=
  (symbols.classMembers? name).isSome

end Symbols

end Codemod
