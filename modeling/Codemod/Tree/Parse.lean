import Codemod.Php.Grammar
import Codemod.Tree.OfProgram

/-!
Reading a source text into a tree that keeps the text.
-/

namespace Codemod

structure SyntaxError where
  message : String
  position : Position
deriving DecidableEq, Repr

def Tree.parse (source : String) : Except SyntaxError Tree :=
  match Php.program source with
  | .ok program => .ok (Tree.ofProgram source program)
  | .error error => .error ⟨error.message, Position.ofOffset source error.offset⟩

end Codemod
