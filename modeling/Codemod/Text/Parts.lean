/-!
Paths as texts: their parts stand between slashes.
-/

namespace Codemod.Text

/-- The parts of a path. One that starts or ends with a slash has an empty part there. -/
def parts (path : String) : List String :=
  (path.toList.splitOn '/').map String.ofList

theorem parts_plain {name : String} (plain : '/' ∉ name.toList) : parts name = [name] := by
  rw [parts, List.splitOn_eq_singleton plain, List.map_singleton, String.ofList_toList]

theorem parts_append (front back : String) :
    parts (front ++ "/" ++ back) = parts front ++ parts back := by
  have split : (front ++ "/" ++ back).toList = front.toList ++ '/' :: back.toList := by simp
  rw [parts, split, List.splitOn_append_cons_self, List.map_append]
  rfl

end Codemod.Text
