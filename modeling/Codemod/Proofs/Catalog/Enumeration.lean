import Codemod.Config
import Codemod.Proofs.Catalog.Renaming
import Mathlib.Data.List.Forall2
import Mathlib.Data.List.Induction
import Mathlib.Data.String.Basic

/-!
What a configuration means where its maps are listed in another order. Tables that are looked up by
name are read alike in every order, and which of two keys for one name are told does not depend on it
either. Of several keys for one class the last one listed decides on the members, and of several
references that are no class constants the first one listed is told; nothing else depends on the order.
-/

namespace Codemod

/-- Two listings of one map: the same entries in any order, with keys that differ. -/
structure Shuffled {α : Type} (entries others : List (String × α)) : Prop where
  order : entries.Perm others
  keys : (entries.map Prod.fst).Nodup

namespace Shuffled

variable {α : Type} {entries others : List (String × α)}

theorem lookup_eq_some_iff (keys : (entries.map Prod.fst).Nodup) {key : String} {value : α} :
    entries.lookup key = some value ↔ (key, value) ∈ entries := by
  constructor
  · intro found
    obtain ⟨front, back, rfl, _⟩ := List.lookup_eq_some_iff.mp found
    simp
  · intro member
    obtain ⟨front, back, rfl⟩ := List.append_of_mem member
    refine List.lookup_eq_some_iff.mpr ⟨front, back, rfl, ?_⟩
    intro earlier among
    rw [List.map_append, List.map_cons, List.nodup_append] at keys
    exact bne_iff_ne.mpr fun same =>
      keys.2.2 _ (List.mem_map_of_mem among) _ List.mem_cons_self same.symm

theorem lookup (shuffled : Shuffled entries others) (key : String) :
    entries.lookup key = others.lookup key := by
  have keys := (shuffled.order.map Prod.fst).nodup_iff.mp shuffled.keys
  ext value
  rw [lookup_eq_some_iff shuffled.keys, lookup_eq_some_iff keys, shuffled.order.mem_iff]

theorem isEmpty (shuffled : Shuffled entries others) : entries.isEmpty = others.isEmpty := by
  rw [Bool.eq_iff_iff, List.isEmpty_iff, List.isEmpty_iff]
  exact ⟨fun none => (none ▸ shuffled.order).nil_eq.symm, fun none => (none ▸ shuffled.order).eq_nil⟩

end Shuffled

namespace NameTable

variable {table others : NameTable}

theorem least?_le {entry : String × String} (found : least? table = some entry) :
    ∀ other ∈ table, entry.1 ≤ other.1 := by
  induction table generalizing entry with
  | nil => exact nofun
  | cons first rest ih =>
      rw [least?] at found
      split at found
      · next none =>
          cases found
          intro other member
          rcases List.mem_cons.mp member with rfl | later
          · exact le_refl _
          · exact absurd none (Option.isSome_iff_ne_none.mp (least?_isSome (List.ne_nil_of_mem later)))
      · next least later =>
          split at found
          · next less =>
              cases found
              exact List.forall_mem_cons.mpr ⟨le_of_lt less, ih later⟩
          · next not =>
              cases found
              refine List.forall_mem_cons.mpr ⟨le_refl _, fun other member => ?_⟩
              exact le_trans (not_lt.mp not) (ih later other member)

/-- The least key is found wherever it stands. -/
theorem least?_shuffled (shuffled : Shuffled table others) : least? table = least? others := by
  cases here : least? table with
  | none =>
      cases there : least? others with
      | none => rfl
      | some entry =>
          have member := shuffled.order.mem_iff.mpr (mem_of_least? there)
          exact absurd here (Option.isSome_iff_ne_none.mp (least?_isSome (List.ne_nil_of_mem member)))
  | some entry =>
      have member := shuffled.order.mem_iff.mp (mem_of_least? here)
      obtain ⟨other, there⟩ :=
        Option.isSome_iff_exists.mp (least?_isSome (List.ne_nil_of_mem member))
      have among := shuffled.order.mem_iff.mpr (mem_of_least? there)
      have keys : entry.1 = other.1 :=
        le_antisymm (least?_le here other among) (least?_le there entry member)
      rw [there, List.inj_on_of_nodup_map shuffled.keys (mem_of_least? here) among keys]

theorem find?_shuffled (shuffled : Shuffled table others) : table.find? = others.find? := by
  funext title
  have named : Shuffled (table.filter fun entry => Name.same entry.1 title)
      (others.filter fun entry => Name.same entry.1 title) :=
    ⟨shuffled.order.filter _, (List.filter_sublist.map Prod.fst).nodup shuffled.keys⟩
  rw [find?, find?, shuffled.lookup, least?_shuffled named]

/-- Two keys for one name are told alike in every order: the keys are sorted first. -/
theorem clashing?_perm (order : table.Perm others) : table.clashing? = others.clashing? := by
  have sorted : ∀ names : List String,
      (names.mergeSort fun a b => decide (a ≤ b)).Pairwise (· ≤ ·) := fun names =>
    (List.pairwise_mergeSort (fun a b c => by simpa using le_trans)
      (fun a b => by simpa using le_total a b) names).imp of_decide_eq_true
  have keys : ((table.map Prod.fst).mergeSort fun a b => decide (a ≤ b))
      = (others.map Prod.fst).mergeSort fun a b => decide (a ≤ b) := by
    apply List.Perm.eq_of_pairwise (fun _ _ _ _ => le_antisymm) (sorted _) (sorted _)
    exact (List.mergeSort_perm ..).trans ((order.map _).trans (List.mergeSort_perm ..).symm)
  rw [clashing?, keys, clashing?]

structure Agree (table others : NameTable) : Prop where
  texts : table.find? = others.find?
  clash : table.clashing? = others.clashing?
  empty : table.isEmpty = others.isEmpty

theorem Agree.refl (table : NameTable) : table.Agree table :=
  ⟨rfl, rfl, rfl⟩

theorem Agree.of_shuffled (shuffled : Shuffled table others) : table.Agree others :=
  ⟨find?_shuffled shuffled, clashing?_perm shuffled.order, shuffled.isEmpty⟩

end NameTable

/-! ### Known classes -/

namespace Symbols

variable {entries others : List (String × List String)}

theorem lookup_filter_ne {key other : String} (differs : other ≠ key) :
    (entries.filter fun entry => entry.1 != key).lookup other = entries.lookup other := by
  induction entries with
  | nil => rfl
  | cons entry rest ih =>
      by_cases same : entry.1 = key
      · have passed : (other == entry.1) = false := beq_false_of_ne (same ▸ differs)
        rw [List.filter_cons_of_neg (by simp [same]), ih, List.lookup_cons, passed]
      · rw [List.filter_cons_of_pos (by simp [same]), List.lookup_cons, List.lookup_cons, ih]

theorem classMembers?_insert (symbols : Symbols) (className name : String) (members : List String) :
    (symbols.insert className members).classMembers? name
      = if Name.same className name then some members else symbols.classMembers? name := by
  rw [insert, classMembers?, classMembers?]
  by_cases same : Name.fold name = Name.fold className
  · rw [if_pos (Name.same_iff.mpr same.symm), List.lookup_cons, same, beq_self_eq_true]
  · rw [if_neg fun alike => same (Name.same_iff.mp alike).symm, List.lookup_cons,
      beq_false_of_ne same]
    exact lookup_filter_ne same

/-- Of all entries for a class the last one counts. -/
theorem classMembers?_ofList (entries : List (String × List String)) (name : String) :
    (ofList entries).classMembers? name
      = (entries.filter fun entry => Name.same entry.1 name).getLast?.map Prod.snd := by
  induction entries using List.reverseRecOn with
  | nil => rfl
  | append_singleton front entry ih =>
      rw [ofList, List.foldl_append, List.foldl_cons, List.foldl_nil, classMembers?_insert,
        ← ofList, ih, List.filter_append]
      by_cases same : Name.same entry.1 name
      · simp [same]
      · simp [same]

theorem hasClass_ofList (entries : List (String × List String)) (name : String) :
    (ofList entries).hasClass name = entries.any fun entry => Name.same entry.1 name := by
  rw [hasClass, classMembers?_ofList, Option.isSome_map, Bool.eq_iff_iff, List.getLast?_isSome]
  simp [List.filter_eq_nil_iff]

/-- A class is known in every order or in none. -/
theorem hasClass_perm (order : entries.Perm others) (name : String) :
    (ofList entries).hasClass name = (ofList others).hasClass name := by
  rw [hasClass_ofList, hasClass_ofList, order.any_eq]

/-- Its members are the same in every order exactly if all entries for the class agree on them. -/
theorem classMembers?_perm_iff (entries : List (String × List String)) (name : String) :
    (∀ others, entries.Perm others →
        (ofList others).classMembers? name = (ofList entries).classMembers? name)
      ↔ ∀ first ∈ entries, ∀ second ∈ entries, Name.same first.1 name → Name.same second.1 name →
        first.2 = second.2 := by
  constructor
  · -- Listed last, an entry decides.
    intro steady first here second there named also
    have decides : ∀ entry ∈ entries, Name.same entry.1 name →
        (ofList entries).classMembers? name = some entry.2 := by
      intro entry member named
      have order : entries.Perm (entries.erase entry ++ [entry]) :=
        (List.perm_cons_erase member).trans (List.perm_append_singleton entry _).symm
      rw [← steady _ order, classMembers?_ofList, List.filter_append]
      simp [named]
    exact Option.some.inj ((decides first here named).symm.trans (decides second there also))
  · intro agreed others order
    rw [classMembers?_ofList, classMembers?_ofList]
    have filtered := order.filter fun entry => Name.same entry.1 name
    cases here : (entries.filter fun entry => Name.same entry.1 name).getLast? with
    | none =>
        rw [List.getLast?_eq_none_iff] at here
        rw [here] at filtered
        rw [filtered.nil_eq.symm]
        rfl
    | some first =>
        have member := List.mem_of_getLast? here
        obtain ⟨second, there⟩ := Option.isSome_iff_exists.mp
          (List.getLast?_isSome.mpr (List.ne_nil_of_mem (filtered.mem_iff.mp member)))
        have among := filtered.mem_iff.mpr (List.mem_of_getLast? there)
        rw [List.mem_filter] at member among
        rw [there, Option.map_some, Option.map_some,
          agreed first member.1 second among.1 member.2 among.2]

end Symbols

/-! ### Parameters -/

/-- Values that are the same but for the order in which a map is listed. -/
inductive ConfigValue.Alike : ConfigValue → ConfigValue → Prop
  | bool (value : Bool) : Alike (.bool value) (.bool value)
  | integer (value : Int) : Alike (.integer value) (.integer value)
  | string (value : String) : Alike (.string value) (.string value)
  | list (items : List String) : Alike (.list items) (.list items)
  | stringMap {entries others : List (String × String)} (shuffled : Shuffled entries others) :
      Alike (.stringMap entries) (.stringMap others)

/-- Specifications of one rule whose maps may be listed in different orders: the parameters, and each
map among their values. -/
structure RuleSpec.Alike (spec other : RuleSpec) : Prop where
  id : spec.id = other.id
  params : ∃ listed, Shuffled spec.params listed
    ∧ List.Forall₂ (fun param value => param.1 = value.1 ∧ param.2.Alike value.2) listed other.params

structure Params.Alike (params others : Params) : Prop where
  rule : params.rule = others.rule
  values : ∀ param,
    (params.get? param = others.get? param ∧ ∀ entries, params.get? param ≠ some (.stringMap entries))
    ∨ ∃ entries listed, params.get? param = some (.stringMap entries)
      ∧ others.get? param = some (.stringMap listed) ∧ Shuffled entries listed

/-- Both are refused with the same error, or what is read agrees. -/
inductive Matched {ε α : Type} (agrees : α → α → Prop) : Except ε α → Except ε α → Prop
  | ok {first second : α} (agreed : agrees first second) : Matched agrees (.ok first) (.ok second)
  | error (reason : ε) : Matched agrees (.error reason) (.error reason)

theorem Matched.bind {ε α β : Type} {agrees : α → α → Prop} {also : β → β → Prop}
    {first second : Except ε α} {next other : α → Except ε β} (matched : Matched agrees first second)
    (further : ∀ {a b}, agrees a b → Matched also (next a) (other b)) :
    Matched also (first >>= next) (second >>= other) := by
  cases matched with
  | ok agreed => exact further agreed
  | error reason => exact .error reason

theorem Matched.after {ε α β : Type} {also : β → β → Prop} (first : Except ε α)
    {next other : α → Except ε β} (further : ∀ a, Matched also (next a) (other a)) :
    Matched also (first >>= next) (first >>= other) := by
  cases first with
  | ok value => exact further value
  | error reason => exact .error reason

/-- What is made of the two agrees outright. -/
theorem Matched.map_eq {ε α β : Type} {first second : Except ε α} {make : α → β}
    (agrees : α → α → Prop) (matched : Matched agrees first second)
    (same : ∀ {a b}, agrees a b → make a = make b) : first.map make = second.map make := by
  cases matched with
  | ok agreed => exact congrArg Except.ok (same agreed)
  | error reason => rfl

theorem RuleSpec.Alike.given {spec other : RuleSpec} (alike : spec.Alike other) (rule : String) :
    Params.Alike ⟨rule, spec.params⟩ ⟨rule, other.params⟩ := by
  obtain ⟨listed, shuffled, pairs⟩ := alike.params
  refine ⟨rfl, fun param => ?_⟩
  simp only [Params.get?, shuffled.lookup]
  clear shuffled
  revert pairs
  generalize other.params = values
  intro pairs
  induction pairs with
  | nil => exact .inl ⟨rfl, nofun⟩
  | @cons entry value rest more here _ ih =>
      obtain ⟨key, first⟩ := entry
      obtain ⟨_, second⟩ := value
      obtain ⟨rfl, alike⟩ := here
      rw [List.lookup_cons, List.lookup_cons]
      cases param == key with
      | false => exact ih
      | true =>
          cases alike with
          | stringMap shuffled => exact .inr ⟨_, _, rfl, rfl, shuffled⟩
          | _ => exact .inl ⟨rfl, nofun⟩

namespace Params.Alike

variable {params others : Params} (alike : params.Alike others) (param : String)

include alike

theorem contains : params.contains param = others.contains param := by
  rcases alike.values param with ⟨same, _⟩ | ⟨entries, listed, here, there, _⟩
  · rw [Params.contains, Params.contains, same]
  · rw [Params.contains, Params.contains, here, there]
    rfl

theorem string? : params.string? param = others.string? param := by
  simp only [Params.string?, Params.invalid, alike.rule]
  rcases alike.values param with ⟨same, _⟩ | ⟨entries, listed, here, there, _⟩
  · rw [same]
  · rw [here, there]
    rfl

theorem position? : params.position? param = others.position? param := by
  simp only [Params.position?, Params.invalid, alike.rule]
  rcases alike.values param with ⟨same, _⟩ | ⟨entries, listed, here, there, _⟩
  · rw [same]
  · rw [here, there]
    rfl

theorem requireList : params.requireList param = others.requireList param := by
  simp only [Params.requireList, Params.missing, Params.invalid, alike.rule]
  rcases alike.values param with ⟨same, _⟩ | ⟨entries, listed, here, there, _⟩
  · rw [same]
  · rw [here, there]
    rfl

theorem required {α : Type} (value : Option α) :
    params.required param value = others.required param value := by
  cases value with
  | none => simp only [Params.required, Params.missing, alike.rule]
  | some value => rfl

theorem requireString : params.requireString param = others.requireString param := by
  simp only [Params.requireString, alike.string?, alike.required, Params.invalid, alike.rule]

theorem requirePosition : params.requirePosition param = others.requirePosition param := by
  simp only [Params.requirePosition, alike.position?, alike.required]

theorem optionalString : ExtractChainArguments.optionalString params param
    = ExtractChainArguments.optionalString others param := by
  simp only [ExtractChainArguments.optionalString, alike.contains, alike.requireString]

theorem target : CallTarget.ofParams params = CallTarget.ofParams others := by
  simp only [CallTarget.ofParams, alike.string?, Params.invalid, Params.missing, alike.rule]

theorem requireMap : Matched Shuffled (params.requireMap param) (others.requireMap param) := by
  simp only [Params.requireMap, Params.missing, Params.invalid, alike.rule]
  rcases alike.values param with ⟨same, plain⟩ | ⟨entries, listed, here, there, shuffled⟩
  · rw [← same]
    cases given : params.get? param with
    | none => exact .error _
    | some value =>
        cases value with
        | stringMap entries => exact absurd given (plain entries)
        | _ => exact .error _
  · rw [here, there]
    dsimp only
    rw [shuffled.isEmpty]
    split
    · exact .error _
    · exact .ok shuffled

theorem distinct {entries listed : NameTable} (agree : entries.Agree listed) :
    Matched NameTable.Agree (params.distinct param entries) (others.distinct param listed) := by
  simp only [Params.distinct, Params.invalid, alike.rule, agree.clash]
  split
  · exact .error _
  · exact .ok agree

theorem requireNameTable :
    Matched NameTable.Agree (params.requireNameTable param) (others.requireNameTable param) :=
  (alike.requireMap param).bind fun shuffled => alike.distinct param (.of_shuffled shuffled)

theorem requireNames :
    Matched NameTable.Agree (params.requireNames param) (others.requireNames param) := by
  have checked : ∀ {entries listed : NameTable}, entries.Agree listed →
      Matched NameTable.Agree
        (do
          if entries.isEmpty then .error (.invalidParameter others.rule param .empty)
          params.distinct param entries)
        (do
          if listed.isEmpty then .error (.invalidParameter others.rule param .empty)
          others.distinct param listed) := by
    intro entries listed agree
    rw [agree.empty]
    split
    · exact .error _
    · exact alike.distinct param agree
  simp only [Params.requireNames, Params.missing, Params.invalid, alike.rule]
  rcases alike.values param with ⟨same, plain⟩ | ⟨entries, listed, here, there, shuffled⟩
  · rw [← same]
    cases given : params.get? param with
    | none => exact .error _
    | some value =>
        cases value with
        | stringMap entries => exact absurd given (plain entries)
        | list items => exact checked (.refl (items.eraseDups.map fun item => (item, "")))
        | string item => exact checked (.refl [(item, "")])
        | _ => exact .error _
  · rw [here, there]
    exact checked (.of_shuffled shuffled)

end Params.Alike

/-! ### Rules -/

theorem RenameFunction.rule_congr {config other : RenameFunction}
    (texts : config.mappings.find? = other.mappings.find?) : config.rule = other.rule := by
  have target : config.target? = other.target? := by
    funext tree call
    rw [target?, target?, texts]
  have apply : config.apply = other.apply := by
    funext call
    rw [RenameFunction.apply, RenameFunction.apply, target]
  rw [rule, rule, target, apply]

theorem RenameMethod.rule_congr {config other : RenameMethod}
    (texts : config.mappings.find? = other.mappings.find?) : config.rule = other.rule := by
  have target : config.target? = other.target? := by
    funext tree call
    rw [target?, target?, texts]
  have apply : config.apply = other.apply := by
    funext call
    rw [RenameMethod.apply, RenameMethod.apply, target]
  rw [rule, rule, target, apply]

theorem RenameType.rule_congr {config other : RenameType}
    (texts : config.mappings.find? = other.mappings.find?) : config.rule = other.rule := by
  have target : config.target? = other.target? := by
    funext tree call
    rw [target?, target?, texts]
  have apply : config.apply = other.apply := by
    funext call
    rw [RenameType.apply, RenameType.apply, target]
  rw [rule, rule, target, apply]

theorem WrapArguments.rule_congr {methods others : NameTable} (className : String)
    (texts : methods.find? = others.find?) :
    (⟨methods, className⟩ : WrapArguments).rule = (⟨others, className⟩ : WrapArguments).rule := by
  have plan : (⟨methods, className⟩ : WrapArguments).plan
      = (⟨others, className⟩ : WrapArguments).plan := by
    funext tree call
    simp only [WrapArguments.plan, texts]
    rfl
  have apply : (⟨methods, className⟩ : WrapArguments).apply
      = (⟨others, className⟩ : WrapArguments).apply := by
    funext call
    rw [WrapArguments.apply, WrapArguments.apply, plan]
    rfl
  rw [rule, rule, plan, apply]

theorem RenameMethodByArgument.rule_congr (config : RenameMethodByArgument)
    {listed : List (String × String)} (texts : ∀ text, config.values.lookup text = listed.lookup text) :
    config.rule = { config with values := listed }.rule := by
  have newName : config.newName = { config with values := listed }.newName := by
    funext tree call
    simp only [RenameMethodByArgument.newName, byValue, texts]
  have plan : config.plan = { config with values := listed }.plan := by
    funext tree call
    rw [RenameMethodByArgument.plan, RenameMethodByArgument.plan, newName]
    rfl
  have apply : config.apply = { config with values := listed }.apply := by
    funext call
    rw [RenameMethodByArgument.apply, RenameMethodByArgument.apply, plan]
  rw [rule, rule, plan, apply]

theorem StringToClassConstant.rule_congr (config : StringToClassConstant)
    {listed : List (String × ClassConstant)}
    (texts : ∀ text, config.constants.lookup text = listed.lookup text) :
    config.rule = { config with constants := listed }.rule := by
  have constant : config.constantFor? = { config with constants := listed }.constantFor? := by
    funext symbols text
    simp only [constantFor?, texts]
  have replacement : config.replacement? = { config with constants := listed }.replacement? := by
    funext tree call symbols
    rw [replacement?, replacement?, constant]
  have apply : config.apply = { config with constants := listed }.apply := by
    funext call context
    rw [StringToClassConstant.apply, StringToClassConstant.apply, replacement]
  rw [rule, rule, replacement, apply]

namespace Params.Alike

variable {params others : Params} (alike : params.Alike others)

include alike

theorem renameFunction : (RenameFunction.ofParams params).map RenameFunction.rule
    = (RenameFunction.ofParams others).map RenameFunction.rule := by
  apply Matched.map_eq (fun config other => config.rule = other.rule) _ id
  exact (alike.requireNameTable "mappings").bind fun agree =>
    .ok (RenameFunction.rule_congr agree.texts)

theorem renameMethod : (RenameMethod.ofParams params).map RenameMethod.rule
    = (RenameMethod.ofParams others).map RenameMethod.rule := by
  apply Matched.map_eq (fun config other => config.rule = other.rule) _ id
  exact (alike.requireNameTable "mappings").bind fun agree =>
    .ok (RenameMethod.rule_congr agree.texts)

theorem renameType : (RenameType.ofParams params).map RenameType.rule
    = (RenameType.ofParams others).map RenameType.rule := by
  apply Matched.map_eq (fun config other => config.rule = other.rule) _ id
  exact (alike.requireNameTable "mappings").bind fun agree =>
    .ok (RenameType.rule_congr agree.texts)

theorem newToBuilder : NewToBuilder.ofParams params = NewToBuilder.ofParams others := by
  simp only [NewToBuilder.ofParams, alike.requireString]

theorem removeArgument : RemoveArgument.ofParams params = RemoveArgument.ofParams others := by
  simp only [RemoveArgument.ofParams, alike.target, alike.requirePosition, alike.string?]

theorem extractChainArguments :
    ExtractChainArguments.ofParams params = ExtractChainArguments.ofParams others := by
  simp only [ExtractChainArguments.ofParams, alike.requireString, alike.requireList,
    alike.optionalString]

theorem wrapArguments : (WrapArguments.ofParams params).map WrapArguments.rule
    = (WrapArguments.ofParams others).map WrapArguments.rule := by
  apply Matched.map_eq (fun config other => config.rule = other.rule) _ id
  simp only [WrapArguments.ofParams, alike.requireString]
  refine .after _ fun className => ?_
  exact (alike.requireNames "methods").bind fun agree =>
    .ok (WrapArguments.rule_congr _ agree.texts)

theorem renameMethodByArgument :
    (RenameMethodByArgument.ofParams params).map RenameMethodByArgument.rule
      = (RenameMethodByArgument.ofParams others).map RenameMethodByArgument.rule := by
  apply Matched.map_eq (fun config other => config.rule = other.rule) _ id
  simp only [RenameMethodByArgument.ofParams, alike.requireString, alike.requirePosition,
    alike.string?, alike.position?, Params.invalid, alike.rule]
  refine .after _ fun method => .after _ fun position => ?_
  refine (alike.requireMap "values").bind fun shuffled => .after _ fun default => ?_
  split
  · exact .error _
  · exact .after _ fun keep => .ok (RenameMethodByArgument.rule_congr _ shuffled.lookup)

end Params.Alike

/-! ### References that are no class constants -/

namespace StringToClassConstant

def malformed (entries : List (String × String)) : List String :=
  (entries.map Prod.snd).filter fun reference => (ClassConstant.parse? reference).isNone

def wellFormed (entries : List (String × String)) : List (String × ClassConstant) :=
  entries.filterMap fun entry => (ClassConstant.parse? entry.2).map (entry.1, ·)

theorem wellFormed_keys (entries : List (String × String)) :
    ((wellFormed entries).map Prod.fst).Sublist (entries.map Prod.fst) := by
  induction entries with
  | nil => exact .slnil
  | cons entry rest ih =>
      rw [wellFormed, List.filterMap_cons]
      cases ClassConstant.parse? entry.2 with
      | none => exact ih.cons _
      | some constant => exact ih.cons_cons _

theorem shuffled_wellFormed {entries listed : List (String × String)}
    (shuffled : Shuffled entries listed) : Shuffled (wellFormed entries) (wellFormed listed) :=
  ⟨shuffled.order.filterMap _, (wellFormed_keys entries).nodup shuffled.keys⟩

/-- The first malformed reference is told. -/
theorem readConstants_eq (params : Params) (entries : List (String × String)) :
    readConstants params entries = match (malformed entries).head? with
      | some reference => params.invalid "constants" (.notClassConstant reference)
      | none => .ok (wellFormed entries) := by
  induction entries with
  | nil => rfl
  | cons entry rest ih =>
      rw [readConstants, malformed, List.map_cons, List.filter_cons, wellFormed, List.filterMap_cons]
      cases parsed : ClassConstant.parse? entry.2 with
      | none => rfl
      | some constant =>
          simp only [ih]
          rw [malformed, wellFormed]
          simp only [Option.isNone_some, Bool.false_eq_true, if_false, Option.map_some]
          cases ((rest.map Prod.snd).filter fun reference =>
            (ClassConstant.parse? reference).isNone).head? <;> rfl

end StringToClassConstant

theorem Params.get?_of_requireMap {params : Params} {param : String}
    {entries : List (String × String)} (given : params.requireMap param = .ok entries) :
    params.get? param = some (.stringMap entries) := by
  rw [requireMap] at given
  split at given
  · cases given
  · next found =>
      split at given
      · cases given
      · cases given
        exact found
  · cases given

namespace StringToClassConstant

/-- What parameters with references read as. -/
theorem ofParams_eq {params : Params} {target : CallTarget} {position : Nat}
    {entries : List (String × String)} (called : CallTarget.ofParams params = .ok target)
    (placed : params.requirePosition "position" = .ok position)
    (given : params.requireMap "constants" = .ok entries) :
    ofParams params = match (malformed entries).head? with
      | some reference => params.invalid "constants" (.notClassConstant reference)
      | none => .ok ⟨target, position, wellFormed entries⟩ := by
  have holds : params.contains "constants" = true := by
    rw [Params.contains, Params.get?_of_requireMap given]
    rfl
  rw [ofParams, called, placed, holds, given]
  change (readConstants params entries >>= fun constants =>
    pure (⟨target, position, constants⟩ : StringToClassConstant)) = _
  rw [readConstants_eq]
  cases (malformed entries).head? <;> rfl

/-- Parameters that are right but for two different references that are no class constants. -/
structure Ambiguous (params : Params) (first second : String) : Prop where
  target : ∃ target, CallTarget.ofParams params = .ok target
  position : ∃ position, params.requirePosition "position" = .ok position
  listed : ∃ entries, params.requireMap "constants" = .ok entries
    ∧ first ∈ malformed entries ∧ second ∈ malformed entries
  differ : first ≠ second

end StringToClassConstant

/-- Two listings of the references read as one rule, unless two of them compete for the error. -/
theorem Params.Alike.stringToClassConstant {params others : Params} (alike : params.Alike others) :
    (StringToClassConstant.ofParams params).map StringToClassConstant.rule
        = (StringToClassConstant.ofParams others).map StringToClassConstant.rule
      ∨ ∃ first second, StringToClassConstant.Ambiguous params first second
        ∧ StringToClassConstant.ofParams params
          = params.invalid "constants" (.notClassConstant first)
        ∧ StringToClassConstant.ofParams others
          = others.invalid "constants" (.notClassConstant second) := by
  have called := alike.target
  have placed := alike.requirePosition "position"
  have maps := alike.requireMap "constants"
  cases target : CallTarget.ofParams params with
  | error reason =>
      left
      rw [StringToClassConstant.ofParams, StringToClassConstant.ofParams, ← called, target]
      rfl
  | ok target' =>
  cases position : params.requirePosition "position" with
  | error reason =>
      left
      rw [StringToClassConstant.ofParams, StringToClassConstant.ofParams, ← called, target, ← placed,
        position]
      rfl
  | ok position' =>
  generalize here : params.requireMap "constants" = first, there : others.requireMap "constants" = second
    at maps
  cases maps with
  | error reason =>
      left
      rw [StringToClassConstant.ofParams, StringToClassConstant.ofParams, ← called, target, ← placed,
        position, here, there, alike.contains]
      cases others.contains "constants" <;> rfl
  | @ok entries listed shuffled =>
      rw [StringToClassConstant.ofParams_eq target position here,
        StringToClassConstant.ofParams_eq (called ▸ target) (placed ▸ position) there]
      -- Only the order differs, so both listings have a wrong reference or neither has.
      have order : (StringToClassConstant.malformed entries).Perm
          (StringToClassConstant.malformed listed) :=
        (shuffled.order.map Prod.snd).filter _
      cases told : (StringToClassConstant.malformed entries).head? with
      | none =>
          rw [List.head?_eq_none_iff] at told
          rw [told] at order
          rw [order.nil_eq.symm]
          left
          exact congrArg Except.ok (StringToClassConstant.rule_congr _
            (StringToClassConstant.shuffled_wellFormed shuffled).lookup)
      | some first =>
          have member := List.mem_of_mem_head? (Option.mem_def.mpr told)
          cases also : (StringToClassConstant.malformed listed).head? with
          | none =>
              rw [List.head?_eq_none_iff] at also
              exact absurd (order.mem_iff.mp member) (by simp [also])
          | some second =>
              have among := order.mem_iff.mpr (List.mem_of_mem_head? (Option.mem_def.mpr also))
              by_cases same : first = second
              · subst same
                left
                dsimp only
                rw [Params.invalid, Params.invalid, alike.rule]
              · right
                exact ⟨_, _, ⟨⟨_, target⟩, ⟨_, position⟩, ⟨entries, here, member, among⟩, same⟩, rfl, rfl⟩

/-! ### Building -/

namespace RuleSpec

variable {spec other : RuleSpec} {first second : String}

def Ambiguous (spec : RuleSpec) (first second : String) : Prop :=
  spec.id = "string_to_class_constant"
    ∧ StringToClassConstant.Ambiguous ⟨spec.id, spec.params⟩ first second

def unreadable (reference : String) : SpecError :=
  .invalidParameter "string_to_class_constant" "constants" (.notClassConstant reference)

/-- One rule, or one error, is made of a specification in every order, unless two references compete
for the error. -/
theorem Alike.create (alike : spec.Alike other) :
    spec.create = other.create
      ∨ ∃ first second, spec.Ambiguous first second ∧ spec.create = .error (unreadable first)
        ∧ other.create = .error (unreadable second) := by
  rw [RuleSpec.create, RuleSpec.create, ← alike.id]
  cases found : Catalog.find? spec.id with
  | none => exact .inl rfl
  | some entry =>
      have named : entry.id = spec.id := by simpa using List.find?_some found
      have given := alike.given entry.id
      have member : entry ∈ Catalog.entries := List.mem_of_find?_eq_some found
      simp only [Catalog.entries, List.mem_cons, List.not_mem_nil, or_false] at member
      rcases member with rfl | rfl | rfl | rfl | rfl | rfl | rfl | rfl | rfl
      · exact .inl given.renameFunction
      · exact .inl given.renameMethod
      · exact .inl (congrArg (Except.map NewToBuilder.rule) given.newToBuilder)
      · exact .inl given.renameType
      · exact .inl given.wrapArguments
      · exact .inl (congrArg (Except.map RemoveArgument.rule) given.removeArgument)
      · rcases given.stringToClassConstant with same | ⟨first, second, ambiguous, here, there⟩
        · exact .inl same
        · right
          refine ⟨first, second, ⟨named.symm, named ▸ ambiguous⟩, ?_, ?_⟩
          · exact congrArg (Except.map StringToClassConstant.rule) here
          · exact congrArg (Except.map StringToClassConstant.rule) there
      · exact .inl given.renameMethodByArgument
      · exact .inl (congrArg (Except.map ExtractChainArguments.rule) given.extractChainArguments)

/-- The keys of the parameters differ, and so do those of each map among their values. -/
structure Keyed (spec : RuleSpec) : Prop where
  params : (spec.params.map Prod.fst).Nodup
  maps : ∀ param entries, (param, .stringMap entries) ∈ spec.params → (entries.map Prod.fst).Nodup

theorem alike_self {value : ConfigValue}
    (keys : ∀ entries, value = .stringMap entries → (entries.map Prod.fst).Nodup) :
    value.Alike value := by
  cases value with
  | bool value => exact .bool value
  | integer value => exact .integer value
  | string value => exact .string value
  | list items => exact .list items
  | stringMap entries => exact .stringMap ⟨.refl entries, keys entries rfl⟩

def relisted (spec : RuleSpec) (listed : List (String × String)) : RuleSpec :=
  { spec with params := spec.params.map fun param =>
      if param.1 = "constants" then (param.1, .stringMap listed) else param }

theorem alike_relisted {entries : List (String × String)} (listed : List (String × String))
    (keyed : spec.Keyed) (member : ("constants", .stringMap entries) ∈ spec.params)
    (order : entries.Perm listed) : spec.Alike (spec.relisted listed) := by
  refine ⟨rfl, spec.params, ⟨.refl _, keyed.params⟩, ?_⟩
  rw [relisted, List.forall₂_map_right_iff, List.forall₂_same]
  rintro ⟨key, value⟩ among
  by_cases same : key = "constants"
  · cases List.inj_on_of_nodup_map keyed.params among member same
    rw [if_pos rfl]
    exact ⟨rfl, .stringMap ⟨order, keyed.maps _ _ member⟩⟩
  · rw [if_neg same]
    exact ⟨rfl, alike_self fun entries is => keyed.maps key entries (is ▸ among)⟩

theorem lookup_relisted {entries listed : List (String × String)} (keyed : spec.Keyed)
    (member : ("constants", .stringMap entries) ∈ spec.params) :
    (spec.relisted listed).params.lookup "constants" = some (.stringMap listed) := by
  have keys : ((spec.relisted listed).params.map Prod.fst) = spec.params.map Prod.fst := by
    rw [relisted, List.map_map]
    refine List.map_congr_left fun param _ => ?_
    rw [Function.comp_apply]
    split <;> rfl
  rw [Shuffled.lookup_eq_some_iff (keys ▸ keyed.params)]
  exact List.mem_map.mpr ⟨_, member, if_pos rfl⟩

/-- Each of two references that compete for the error is told in some order. -/
theorem Ambiguous.told (ambiguous : spec.Ambiguous first second) (keyed : spec.Keyed) :
    ∃ other, spec.Alike other ∧ other.create = .error (unreadable first) := by
  obtain ⟨named, ⟨target, called⟩, ⟨position, placed⟩, ⟨entries, given, member, _⟩, _⟩ := ambiguous
  obtain ⟨⟨text, reference⟩, among, rfl⟩ := List.mem_map.mp (List.mem_filter.mp member).1
  have held := (Shuffled.lookup_eq_some_iff keyed.params).mp (Params.get?_of_requireMap given)
  have malformed := (List.mem_filter.mp member).2
  let listed := (text, reference) :: entries.erase (text, reference)
  have alike := alike_relisted listed keyed held (List.perm_cons_erase among)
  refine ⟨spec.relisted listed, alike, ?_⟩
  have read : Params.requireMap ⟨spec.id, (spec.relisted listed).params⟩ "constants" = .ok listed := by
    rw [Params.requireMap, Params.get?, lookup_relisted keyed held]
    rfl
  have made := StringToClassConstant.ofParams_eq ((alike.given spec.id).target ▸ called)
    ((alike.given spec.id).requirePosition "position" ▸ placed) read
  have first : (StringToClassConstant.malformed listed).head? = some reference := by
    rw [StringToClassConstant.malformed, List.map_cons, List.filter_cons, if_pos malformed]
    rfl
  rw [first, named] at made
  have entry : (spec.relisted listed).create
      = (StringToClassConstant.ofParams ⟨"string_to_class_constant", (spec.relisted listed).params⟩).map
        StringToClassConstant.rule := by
    rw [RuleSpec.create, ← alike.id, named]
    rfl
  rw [entry, made]
  rfl

theorem Ambiguous.symm (ambiguous : spec.Ambiguous first second) : spec.Ambiguous second first := by
  obtain ⟨named, target, position, ⟨entries, given, here, there⟩, differ⟩ := ambiguous
  exact ⟨named, target, position, ⟨entries, given, there, here⟩, differ.symm⟩

/-- Exactly where no two references compete for the error, the same is made of the specification in
every order. -/
theorem create_alike_iff (keyed : spec.Keyed) :
    (∀ other, spec.Alike other → other.create = spec.create)
      ↔ ∀ first second, ¬ spec.Ambiguous first second := by
  constructor
  · intro steady first second ambiguous
    obtain ⟨other, alike, told⟩ := ambiguous.told keyed
    obtain ⟨another, also, untold⟩ := ambiguous.symm.told keyed
    rw [steady other alike, ← steady another also, untold] at told
    cases told
    exact ambiguous.2.differ rfl
  · intro clear other alike
    rcases alike.create with same | ⟨first, second, ambiguous, _, _⟩
    · exact same.symm
    · exact absurd ambiguous (clear first second)

end RuleSpec

namespace Catalog

variable {specs others : List RuleSpec}

theorem build_cons (spec : RuleSpec) (specs : List RuleSpec) :
    build (spec :: specs) = (do return (← spec.create) :: (← build specs)) := by
  rw [build, List.mapM_cons]
  rfl

theorem build_alike (alike : List.Forall₂ RuleSpec.Alike specs others) :
    build specs = build others
      ∨ ∃ spec ∈ specs, ∃ first second, spec.Ambiguous first second
        ∧ build specs = .error (RuleSpec.unreadable first)
        ∧ build others = .error (RuleSpec.unreadable second) := by
  induction alike with
  | nil => exact .inl rfl
  | @cons spec other rest more here _ ih =>
      rw [build_cons, build_cons]
      rcases here.create with same | ⟨first, second, ambiguous, told, untold⟩
      · rw [← same]
        cases created : spec.create with
        | error reason => exact .inl rfl
        | ok rule =>
            rcases ih with alike | ⟨later, member, first, second, ambiguous, told, untold⟩
            · rw [alike]
              exact .inl rfl
            · right
              refine ⟨later, List.mem_cons_of_mem _ member, first, second, ambiguous, ?_, ?_⟩
              · rw [told]
                rfl
              · rw [untold]
                rfl
      · right
        refine ⟨spec, List.mem_cons_self, first, second, ambiguous, ?_, ?_⟩
        · rw [told]
          rfl
        · rw [untold]
          rfl

end Catalog

namespace Config

/-- What the order in which maps are listed reaches. Which classes are known never depends on it. The
members of a class do exactly if two entries for it disagree, and what is made of a specification does
exactly if two of its references are no class constants and compete for the error. Otherwise a list of
specifications gives the same rules or the same error in every order. -/
theorem answers_in_every_order (config : Config) :
    (∀ name listed, config.classes.Perm listed →
        { config with classes := listed }.symbols.hasClass name = config.symbols.hasClass name)
      ∧ (∀ name, (∀ listed, config.classes.Perm listed →
          { config with classes := listed }.symbols.classMembers? name
            = config.symbols.classMembers? name)
        ↔ ∀ first ∈ config.classes, ∀ second ∈ config.classes, Name.same first.1 name →
          Name.same second.1 name → first.2 = second.2)
      ∧ (∀ spec : RuleSpec, spec.Keyed → ((∀ other, spec.Alike other → other.create = spec.create)
        ↔ ∀ first second, ¬ spec.Ambiguous first second))
      ∧ ∀ specs others, List.Forall₂ RuleSpec.Alike specs others →
        Catalog.build specs = Catalog.build others
          ∨ ∃ spec ∈ specs, ∃ first second, spec.Ambiguous first second
            ∧ Catalog.build specs = .error (RuleSpec.unreadable first)
            ∧ Catalog.build others = .error (RuleSpec.unreadable second) := by
  refine ⟨?_, ?_, fun spec => RuleSpec.create_alike_iff, fun specs others => Catalog.build_alike⟩
  · exact fun name listed order => (Symbols.hasClass_perm order name).symm
  · exact fun name => Symbols.classMembers?_perm_iff config.classes name

def mail : Config where
  classes := [("Message", ["TEXT"]), ("\\message", ["TEXT"]), ("Mailer", ["SEND"])]

def mapped : RuleSpec :=
  ⟨"rename_function", [("mappings", .stringMap [("split", "explode"), ("join", "implode")])]⟩

/-- Two entries for one class agree, and a table of names is read alike backwards. -/
theorem answers_in_every_order_mail :
    { mail with classes := mail.classes.reverse }.symbols.classMembers? "MESSAGE" = some ["TEXT"]
      ∧ { mail with classes := mail.classes.reverse }.symbols.hasClass "mailer" = true
      ∧ Catalog.build [mapped] = Catalog.build
        [⟨"rename_function", [("mappings", .stringMap [("join", "implode"), ("split", "explode")])]⟩] := by
  obtain ⟨known, members, _, build⟩ := answers_in_every_order mail
  have order : mail.classes.Perm mail.classes.reverse := (List.reverse_perm _).symm
  have agreed : ∀ first ∈ mail.classes, ∀ second ∈ mail.classes, Name.same first.1 "MESSAGE" →
      Name.same second.1 "MESSAGE" → first.2 = second.2 := by
    decide +kernel
  have first : mail.symbols.classMembers? "MESSAGE" = some ["TEXT"] := by decide +kernel
  have second : mail.symbols.hasClass "mailer" = true := by decide +kernel
  refine ⟨((members _).mpr agreed _ order).trans first, (known _ _ order).trans second, ?_⟩
  have shuffled : Shuffled [("split", "explode"), ("join", "implode")]
      [("join", "implode"), ("split", "explode")] :=
    ⟨.swap .., by decide⟩
  have alike : mapped.Alike
      ⟨"rename_function", [("mappings", .stringMap [("join", "implode"), ("split", "explode")])]⟩ :=
    ⟨rfl, _, ⟨.refl _, by decide⟩, .cons ⟨rfl, .stringMap shuffled⟩ .nil⟩
  rcases build _ _ (.cons alike .nil) with same | ⟨spec, member, first, second, ambiguous, _⟩
  · exact same
  · rw [List.mem_singleton.mp member] at ambiguous
    exact absurd ambiguous.1 (by decide)

-- The constants `a` and `b`, neither of which reads as one.
def misspelled (listed : List (String × String)) : RuleSpec :=
  ⟨"string_to_class_constant", [("function", .string "f"), ("position", .integer 0),
    ("constants", .stringMap listed)]⟩

/-- The same classes have other members, and the same specification another error, where the entries
are listed the other way round. -/
theorem order_reaches_answers :
    Shuffled [("Message", ["TEXT"]), ("message", ["HTML"])] [("message", ["HTML"]), ("Message", ["TEXT"])]
      ∧ (Symbols.ofList [("Message", ["TEXT"]), ("message", ["HTML"])]).classMembers? "Message"
        = some ["HTML"]
      ∧ (Symbols.ofList [("message", ["HTML"]), ("Message", ["TEXT"])]).classMembers? "Message"
        = some ["TEXT"]
      ∧ (misspelled [("a", "A.x"), ("b", "B.x")]).Alike (misspelled [("b", "B.x"), ("a", "A.x")])
      ∧ Catalog.build [misspelled [("a", "A.x"), ("b", "B.x")]] = .error (RuleSpec.unreadable "A.x")
      ∧ Catalog.build [misspelled [("b", "B.x"), ("a", "A.x")]] = .error (RuleSpec.unreadable "B.x")
      := by
  refine ⟨⟨.swap .., by decide⟩, by decide +kernel, by decide +kernel, ?_, ?_, ?_⟩
  · refine ⟨rfl, _, ⟨.refl _, by decide⟩, ?_⟩
    exact .cons ⟨rfl, .string "f"⟩ (.cons ⟨rfl, .integer 0⟩
      (.cons ⟨rfl, .stringMap ⟨.swap .., by decide⟩⟩ .nil))
  · rfl
  · rfl

end Config

end Codemod
