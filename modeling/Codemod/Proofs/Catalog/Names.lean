import Codemod.Proofs.Catalog.Enumeration

/-!
Tables by name. Spellings of one name are told apart by nothing but case and leading separators, and a
table is accepted if no two of its keys are spellings of one name. In such a table the entry that is
spelled exactly so and the least one of that name are the same entry, so a lookup sees the name and not
its spelling (`names_respected`).
-/

namespace Codemod

theorem Name.same_equivalence : Equivalence fun a b => Name.same a b = true where
  refl _ := Name.same_iff.mpr rfl
  symm same := Name.same_iff.mpr (Name.same_iff.mp same).symm
  trans same also := Name.same_iff.mpr ((Name.same_iff.mp same).trans (Name.same_iff.mp also))

namespace NameTable

variable {table others : NameTable} {first second text : String}

theorem clash?_eq_none_iff {names : List String} :
    clash? names = none ↔ (names.map Name.fold).Nodup := by
  refine ⟨nodup_of_clash?, ?_⟩
  induction names with
  | nil => exact fun _ => rfl
  | cons name rest ih =>
      intro distinct
      obtain ⟨fresh, later⟩ := List.nodup_cons.mp distinct
      have alone : rest.find? (Name.same name) = none := by
        refine List.find?_eq_none.mpr fun other member same => fresh ?_
        exact List.mem_map.mpr ⟨other, member, (Name.same_iff.mp same).symm⟩
      rw [clash?, alone]
      exact ih later

/-- Keys do not clash if each name has one key. -/
theorem clashing?_eq_none_iff (keys : (table.map Prod.fst).Nodup) :
    table.clashing? = none ↔ ∀ first ∈ table.map Prod.fst, ∀ second ∈ table.map Prod.fst,
      first ≠ second → Name.same first second = false := by
  have sorted := List.mergeSort_perm (table.map Prod.fst) fun a b => decide (a ≤ b)
  rw [clashing?, clash?_eq_none_iff, (sorted.map Name.fold).nodup_iff]
  constructor
  · intro distinct first here second there differ
    refine Bool.eq_false_iff.mpr fun same => differ ?_
    exact List.inj_on_of_nodup_map distinct here there (Name.same_iff.mp same)
  · intro apart
    refine keys.map_on fun first here second there same => ?_
    by_contra differ
    exact Bool.eq_false_iff.mp (apart first here second there differ) (Name.same_iff.mpr same)

/-- A lookup sees the name and not its spelling. -/
theorem find?_same (free : table.clashing? = none) (same : Name.same first second = true) :
    table.find? first = table.find? second := by
  ext text
  rw [find?_eq_some_iff free, find?_eq_some_iff free]
  constructor
  · rintro ⟨key, member, named⟩
    exact ⟨key, member, Name.same_equivalence.trans named same⟩
  · rintro ⟨key, member, named⟩
    exact ⟨key, member, Name.same_equivalence.trans named (Name.same_equivalence.symm same)⟩

end NameTable

/-- A table is taken as it is given, if it has an entry and its keys do not clash. -/
theorem Params.requireNameTable_eq_ok_iff {params : Params} {param : String}
    {table accepted : NameTable} (given : params.get? param = some (.stringMap table)) :
    params.requireNameTable param = .ok accepted
      ↔ accepted = table ∧ table ≠ [] ∧ table.clashing? = none := by
  have read : params.requireNameTable param
      = if table.isEmpty then params.invalid param .empty else params.distinct param table := by
    rw [requireNameTable, requireMap, given]
    cases table <;> rfl
  rw [read]
  cases table with
  | nil => simp [invalid]
  | cons entry rest =>
      rw [distinct]
      cases NameTable.clashing? (entry :: rest) with
      | none => simp [eq_comm]
      | some names => simp [invalid]

/-- Spelling a name otherwise is an equivalence. A map is accepted as a table by name if it has an entry
and no two of its keys spell one name; of an accepted one a lookup tells the text of the key that spells
the name, for every spelling of it and in whatever order the entries are listed. -/
theorem Params.names_respected :
    (Equivalence fun a b => Name.same a b = true)
      ∧ ∀ (params : Params) (param : String) (table : NameTable),
        params.get? param = some (.stringMap table) → (table.map Prod.fst).Nodup →
        (∀ accepted : NameTable, params.requireNameTable param = .ok accepted
          ↔ accepted = table ∧ table ≠ [] ∧ ∀ first ∈ table.map Prod.fst,
            ∀ second ∈ table.map Prod.fst, first ≠ second → Name.same first second = false)
        ∧ (params.requireNameTable param = .ok table → ∀ others : NameTable, table.Perm others →
          ∀ a b, Name.same a b = true → table.find? a = others.find? b
            ∧ ∀ text, table.find? a = some text
              ↔ ∃ key, (key, text) ∈ table ∧ Name.same key a = true) := by
  refine ⟨Name.same_equivalence, fun params param table given keys => ⟨fun accepted => ?_, ?_⟩⟩
  · rw [requireNameTable_eq_ok_iff given, NameTable.clashing?_eq_none_iff keys]
  · intro accepted others order a b same
    have free : table.clashing? = none := free_of_requireNameTable accepted
    refine ⟨?_, fun text => NameTable.find?_eq_some_iff free⟩
    rw [NameTable.find?_same free same, NameTable.find?_shuffled ⟨order, keys⟩]

-- Two names, one with a leading separator.
def spelledNames : NameTable :=
  [("setBody", "text"), ("\\Foo", "Bar")]

/-- They are accepted, and `\SETBODY` and `setbody` have the text of the one key that spells them, in both
orders of the entries. -/
theorem Params.names_respected_spelled :
    (⟨"rename_method", [("mappings", .stringMap spelledNames)]⟩ : Params).requireNameTable "mappings"
        = .ok spelledNames
      ∧ spelledNames.find? "\\SETBODY" = NameTable.find? spelledNames.reverse "setbody"
      ∧ spelledNames.find? "\\SETBODY" = some "text" := by
  have given : (⟨"rename_method", [("mappings", .stringMap spelledNames)]⟩ : Params).get? "mappings"
      = some (.stringMap spelledNames) := by decide
  obtain ⟨accepts, looks⟩ := names_respected.2 _ "mappings" spelledNames given (by decide)
  have accepted := (accepts spelledNames).mpr ⟨rfl, by decide, by decide +kernel⟩
  obtain ⟨agrees, found⟩ := looks accepted _ spelledNames.reverse_perm.symm "\\SETBODY" "setbody"
    (by decide +kernel)
  exact ⟨accepted, agrees, (found "text").mpr ⟨"setBody", by decide, by decide +kernel⟩⟩

end Codemod
