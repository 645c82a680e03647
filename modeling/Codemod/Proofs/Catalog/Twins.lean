import Codemod.Proofs.Catalog.Acting
import Codemod.Proofs.Run.Flattening
import Codemod.Proofs.Tree.Rereading

/-!
Rules on a tree and on the tree that its text is read as. A rule of the catalog that leaves a node as
it is leaves its twin as it is, and whatever was added around it. The exception are rules that compare
the text of an argument: a node keeps the text that it was read from when what is below it changes, so
they are asked to find the same text in both trees.
-/

namespace Codemod

theorem ExtractChainArguments.sourceIndex?_added {config : ExtractChainArguments} {tree again : Tree}
    {twin : NodeId → NodeId} {top id : NodeId} (added : tree.Added again twin top id) :
    config.sourceIndex? again id = none := by
  have other : config.mayBeSource again id = false := by
    cases added with
    | parentheses _ _ shape =>
        rw [mayBeSource, Tree.kind?_of_shape? shape]
        rfl
    | list shape =>
        rw [mayBeSource, Tree.kind?_of_shape? shape]
        rfl
  rw [sourceIndex?, other]
  rfl

def RemoveArgument.compared? (config : RemoveArgument) (tree : Tree) (call : NodeId) : Option NodeId :=
  if config.value.isSome && config.target.accepts tree call then
    tree.positionalValue? call config.position
  else none

def RenameMethodByArgument.compared? (config : RenameMethodByArgument) (tree : Tree) (call : NodeId) :
    Option NodeId :=
  if (CallTarget.method config.method).accepts tree call then
    tree.positionalValue? call config.position
  else none

namespace Tree

variable {tree again : Tree} {twin : NodeId → NodeId}

theorem reaches_value {call value : NodeId} {position : Nat} (reached : tree.Reaches call)
    (passed : tree.positionalValue? call position = some value) : tree.Reaches value := by
  obtain ⟨list, argument, held, listed, shaped⟩ := positionalValue?_eq_some passed
  have inner := mem_childrenIn.mp (List.mem_of_getElem? listed)
  have stands : (Slot.value, value) ∈ tree.children argument := by
    rw [children_of_shape? shaped]
    exact List.mem_singleton.mpr rfl
  exact .child (.child (.child reached (child_of_child? held)) inner) stands

namespace Mirrors

variable (mirrors : tree.Mirrors again twin) {id : NodeId} (reached : tree.Reaches id)

include mirrors reached

theorem kind?_or : again.kind? (twin id) = tree.kind? id
    ∨ tree.kind? id = some .raw ∧ again.kind? (twin id) = some .literal := by
  obtain ⟨shape, other, here, there, reread⟩ := mirrors reached
  rw [kind?_of_shape? here, kind?_of_shape? there]
  cases reread with
  | same => exact Or.inl (congrArg some (Shape.kind_map twin shape))
  | object | list => exact Or.inl rfl
  | null => exact Or.inr ⟨rfl, rfl⟩

theorem namedIn {slot : Slot} (object : slot ≠ .object) (list : slot ≠ .constructorArguments) :
    (again.child? (twin id) slot).bind again.nameOf? = (tree.child? id slot).bind tree.nameOf? := by
  rw [mirrors.child? reached object list]
  cases held : tree.child? id slot with
  | none => rfl
  | some child => exact mirrors.nameOf? (.child reached (child_of_child? held))

end Mirrors

end Tree

section

variable {tree again : Tree} {twin : NodeId → NodeId} (mirrors : tree.Mirrors again twin)
variable {call : NodeId} (reached : tree.Reaches call)

include mirrors reached

theorem RenameFunction.target?_twin (config : RenameFunction) :
    config.target? again (twin call) = config.target? tree call := by
  rw [target?, target?, mirrors.callName? reached]

theorem RenameMethod.target?_twin (config : RenameMethod) :
    config.target? again (twin call) = config.target? tree call := by
  rw [target?, target?, mirrors.callName? reached]

theorem RenameType.target?_twin (config : RenameType) (root : twin tree.root = again.root)
    (tidy : tree.Tidy tree.root) (aligned : again.Tidy again.root)
    (rooted : tree.kind? tree.root = some .program) (other : tree.kind? call ≠ some .program) :
    config.target? again (twin call) = config.target? tree call := by
  rw [target?, target?, mirrors.nameOf? reached,
    mirrors.inTypePosition root tidy aligned rooted reached other]

theorem StringToClassConstant.accepts_twin (config : StringToClassConstant) (symbols : Symbols) :
    (config.replacement? again (twin call) symbols).map Option.isSome
      = (config.replacement? tree call symbols).map Option.isSome := by
  rw [replacement?, replacement?, mirrors.accepts reached]
  by_cases accepted : config.target.accepts tree call
  · rw [if_pos accepted, if_pos accepted, mirrors.positionalValue? reached]
    cases passed : tree.positionalValue? call config.position with
    | none => rfl
    | some value =>
        dsimp only [Option.map_some]
        rw [mirrors.stringValue (Tree.reaches_value reached passed)]
        cases tree.stringValue value with
        | error crash => rfl
        | ok text =>
            refine congrArg Except.ok ?_
            rw [Option.isSome_map, Option.isSome_map]
  · rw [if_neg accepted, if_neg accepted]

theorem RemoveArgument.accepts_twin (config : RemoveArgument)
    (told : ∀ value ∈ config.compared? tree call,
      again.trimmedText? (twin value) = tree.trimmedText? value) :
    (config.argument? again (twin call)).map Option.isSome
      = (config.argument? tree call).map Option.isSome := by
  rw [argument?, argument?, mirrors.accepts reached, mirrors.arguments reached,
    mirrors.positionalValue? reached, List.getElem?_map, List.length_map]
  by_cases accepted : config.target.accepts tree call
  · rw [if_pos accepted, if_pos accepted]
    cases listed : (tree.arguments call)[config.position]? with
    | none => rfl
    | some argument =>
        cases wanted : config.value with
        | none =>
            dsimp only [Option.map_some]
            split <;> rfl
        | some expected =>
            dsimp only [Option.map_some]
            cases passed : tree.positionalValue? call config.position with
            | none => rfl
            | some value =>
                have compared : value ∈ config.compared? tree call := by
                  simp [compared?, wanted, accepted, passed]
                dsimp only [Option.map_some]
                rw [hasValue, hasValue, mirrors.stringValue (Tree.reaches_value reached passed),
                  told value compared]
                cases tree.stringValue value with
                | error crash => rfl
                | ok standsFor =>
                    refine congrArg Except.ok ?_
                    split <;> rfl
  · rw [if_neg accepted, if_neg accepted]

theorem RenameMethodByArgument.accepts_twin (config : RenameMethodByArgument)
    (told : ∀ value ∈ config.compared? tree call,
      again.trimmedText? (twin value) = tree.trimmedText? value) :
    (config.plan again (twin call)).map Option.isSome
      = (config.plan tree call).map Option.isSome := by
  have needs (newName : String) : (config.planFor again (twin call) newName).isSome
      = (config.planFor tree call newName).isSome := by
    rw [planFor, planFor, mirrors.callName? reached, mirrors.arguments reached]
    cases config.keep with
    | none => rfl
    | some keep =>
        dsimp only
        rw [Bool.eq_iff_iff, Option.isSome_ite, Option.isSome_ite, ← List.map_drop, List.isEmpty_map]
  rw [plan, plan, mirrors.accepts reached]
  by_cases accepted : (CallTarget.method config.method).accepts tree call
  · have named : config.newName again (twin call) = config.newName tree call := by
      rw [newName, newName, mirrors.positionalValue? reached]
      cases passed : tree.positionalValue? call config.position with
      | none => rfl
      | some value =>
          have compared : value ∈ config.compared? tree call := by
            simp [compared?, accepted, passed]
          dsimp only [Option.map_some]
          rw [byValue, byValue, mirrors.stringValue (Tree.reaches_value reached passed),
            told value compared]
    rw [if_pos accepted, if_pos accepted, named]
    cases config.newName tree call with
    | error crash => rfl
    | ok title =>
        refine congrArg Except.ok ?_
        cases title with
        | none => rfl
        | some title => exact needs title
  · rw [if_neg accepted, if_neg accepted]

namespace WrapArguments

variable (config : WrapArguments)

theorem isWrapped_twin : config.isWrapped again (twin call) = config.isWrapped tree call := by
  have created : (again.kind? (twin call) == some .new) = (tree.kind? call == some .new) := by
    rw [Bool.eq_iff_iff, beq_iff_eq, beq_iff_eq]
    exact mirrors.created_iff reached
  rw [isWrapped, isWrapped, created, mirrors.instantiatedClass? reached]

theorem needsWrap_twin : config.needsWrap again (twin call) = config.needsWrap tree call := by
  obtain ⟨shape, other, here, there, reread⟩ := mirrors reached
  rw [needsWrap, needsWrap, here, there]
  cases reread with
  | same =>
      cases shape with
      | arrayItem key value unpack =>
          cases unpack with
          | true => rfl
          | false =>
              have stands : (Slot.value, value) ∈ tree.children call := by
                simp [Tree.children_of_shape? here, Shape.children]
              exact congrArg not (config.isWrapped_twin mirrors (.child reached stands))
      | _ => rfl
  | object | list | null => rfl

theorem settled_twin : config.Settled again (twin call) ↔ config.Settled tree call := by
  obtain ⟨shape, other, here, there, reread⟩ := mirrors reached
  have wrapped := config.isWrapped_twin mirrors reached
  have plain : ∀ {tree : Tree} {id : NodeId} {shape : Shape}, tree.shape? id = some shape →
      shape.kind ≠ .array → (config.Settled tree id ↔ config.isWrapped tree id = true) := by
    intro tree id shape read other
    refine ⟨fun settled => settled.resolve_left ?_, Or.inr⟩
    rintro ⟨items, legacy, array, _⟩
    cases read.symm.trans array
    exact other rfl
  cases reread with
  | same =>
      by_cases array : shape.kind = .array
      · cases shape <;> cases array
        rw [settled_array_iff here, settled_array_iff there, List.forall_mem_map]
        refine forall_congr' fun item => forall_congr' fun member => ?_
        rw [config.needsWrap_twin mirrors (.child reached (Tree.child_of_array here member))]
      · rw [plain here array, plain there (shape.kind_map twin ▸ array), wrapped]
  | object | list | null => rw [plain here nofun, plain there nofun, wrapped]

theorem contents_twin : config.contents again (twin call) = .nothing
    ↔ config.contents tree call = .nothing := by
  rw [contents_eq_nothing_iff, contents_eq_nothing_iff, mirrors.positionalValue? reached]
  cases passed : tree.positionalValue? call 0 with
  | none => simp
  | some first =>
      have reaches := Tree.reaches_value reached passed
      simpa using config.settled_twin mirrors reaches

theorem accepts_twin : (config.plan again (twin call)).isSome = (config.plan tree call).isSome := by
  rw [← Bool.not_inj_iff, Option.not_isSome, Option.not_isSome, Bool.eq_iff_iff,
    Option.isNone_iff_eq_none, Option.isNone_iff_eq_none, plan_eq_none_iff, plan_eq_none_iff, mirrors.callName? reached,
    config.contents_twin mirrors reached]

end WrapArguments

namespace NewToBuilder

variable {config : NewToBuilder}

theorem creates_twin : config.creates again (twin call) = config.creates tree call := by
  rw [creates, creates, mirrors.instantiatedClass? reached]

theorem target?_twin : config.target? again (twin call) = (config.target? tree call).map twin := by
  rcases mirrors.kind?_or reached with same | ⟨raw, literal⟩
  · rw [target?, target?, same]
    cases tree.kind? call with
    | none => rfl
    | some kind =>
        cases kind with
        | new =>
            dsimp only
            rw [creates_twin mirrors reached]
            split <;> rfl
        | parenthesized =>
            dsimp only
            rw [mirrors.child? reached (show Slot.expression ≠ .object by decide) (by decide)]
            cases held : tree.child? call .expression with
            | none => rfl
            | some inner =>
                have below : tree.Reaches inner := .child reached (Tree.child_of_child? held)
                have created : (again.kind? (twin inner) == some .new)
                    = (tree.kind? inner == some .new) := by
                  rw [Bool.eq_iff_iff, beq_iff_eq, beq_iff_eq]
                  exact mirrors.created_iff below
                rw [Option.map_some, Option.filter_some, Option.filter_some, created,
                  creates_twin mirrors below, mirrors.arguments below, List.isEmpty_map]
                split <;> rfl
        | _ => rfl
  · rw [target?, target?, raw, literal]
    rfl

theorem done_twin (done : config.Done tree call) : config.Done again (twin call) := by
  rcases done with none | ⟨kind, bare, named⟩
  · left
    rw [target?_twin mirrors reached, none]
    rfl
  · right
    rw [mirrors.arguments reached, bare, mirrors.instantiatedClass? reached]
    exact ⟨(mirrors.created_iff reached).mpr kind, rfl, named⟩

/-- Parentheses around a creation that is done with are left alone. -/
theorem done_parentheses (done : config.Done tree call) (created : tree.kind? call = some .new)
    {id : NodeId} (shape : again.shape? id = some (.parenthesized (twin call))) :
    config.Done again id := by
  left
  have held : again.child? id .expression = some (twin call) := by
    simp [Tree.child?, Tree.childrenIn, Tree.children_of_shape? shape, Shape.children]
  rw [target?, Tree.kind?_of_shape? shape]
  dsimp only [Shape.kind]
  rw [held, Option.filter_some, creates_twin mirrors reached, mirrors.arguments reached,
    List.isEmpty_map]
  refine if_neg fun accepted => ?_
  simp only [Bool.and_eq_true, Bool.not_eq_true'] at accepted
  rcases done with none | ⟨_, bare, _⟩
  · rw [target?, created] at none
    dsimp only at none
    rw [if_pos accepted.1.2] at none
    cases none
  · simp [bare] at accepted

end NewToBuilder

namespace ExtractChainArguments

variable {config : ExtractChainArguments}

theorem sourceIndex?_twin : config.sourceIndex? again (twin call) = config.sourceIndex? tree call := by
  have named := mirrors.namedIn reached (show Slot.className ≠ .object by decide) (by decide)
  have may : config.mayBeSource again (twin call) = config.mayBeSource tree call := by
    rcases mirrors.kind?_or reached with same | ⟨raw, literal⟩
    · rw [mayBeSource, mayBeSource, same, named]
    · rw [mayBeSource, mayBeSource, raw, literal]
  rw [sourceIndex?, sourceIndex?, may, mirrors.callName? reached]

variable (config) (root : twin tree.root = again.root) (tidy : tree.Tidy tree.root)
variable (aligned : again.Tidy again.root) (inside : tree.contains tree.root)
variable (present : again.contains again.root)

omit reached

include root tidy aligned inside present

/-- A source call in the one tree has its twin in the other; what was added is none. -/
theorem sources_twin {chain : NodeId} (reached : tree.Reaches chain) (holds : NodeId → Prop) :
    (∀ source ∈ again.descendants (twin chain), config.sourceIndex? again source = some 0 → holds source)
      ↔ ∀ source ∈ tree.descendants chain, config.sourceIndex? tree source = some 0 →
        holds (twin source) := by
  have listed {source : NodeId} :
      source ∈ again.descendants (twin chain) ↔ again.Below (twin chain) source :=
    (aligned.sub (mirrors.reaches root reached)).mem_descendants
      (aligned.contains_below present (mirrors.reaches root reached))
  have also {source : NodeId} : source ∈ tree.descendants chain ↔ tree.Below chain source :=
    (tidy.sub reached).mem_descendants (tidy.contains_below inside reached)
  constructor
  · intro all source member indexed
    have below := also.mp member
    apply all _ (listed.mpr (mirrors.below reached below))
    rw [sourceIndex?_twin mirrors (reached.trans below)]
    exact indexed
  · intro all source member indexed
    rcases mirrors.of_below reached (listed.mp member) with ⟨former, below, rfl⟩ | added
    · rw [sourceIndex?_twin mirrors (reached.trans below)] at indexed
      exact all former (also.mpr below) indexed
    · rw [sourceIndex?_added added] at indexed
      cases indexed

theorem chain?_twin (reached : tree.Reaches call) :
    config.chain? again (twin call) = (config.chain? tree call).map twin := by
  rw [chain?, chain?, mirrors.accepts reached, mirrors.positionalValue? reached]
  split
  · cases passed : tree.positionalValue? call 0 with
    | none => rfl
    | some value =>
        have below := Tree.reaches_value reached passed
        -- Nothing below a value is a first source in the one tree if nothing is in the other.
        have first : ((again.descendants (twin value)).any fun inner =>
            config.sourceIndex? again inner == some 0)
              = (tree.descendants value).any fun inner => config.sourceIndex? tree inner == some 0 := by
          have none := config.sources_twin mirrors root tidy aligned inside present below fun _ => False
          rw [Bool.eq_iff_iff, ← not_iff_not]
          simpa [List.any_eq_true] using none
        rw [Option.map_some, Option.bind_eq_bind, Option.bind_some, Option.bind_some, first]
        rcases mirrors.kind?_or below with same | ⟨raw, literal⟩
        · rw [same]
          dsimp only
          rw [apply_ite (Option.map twin), Option.map_some, Option.map_none]
        · rw [raw, literal]
          rfl
  · rfl

theorem done_twin (reached : tree.Reaches call) (done : config.Done tree call) :
    config.Done again (twin call) := by
  intro chain found
  rw [config.chain?_twin mirrors root tidy aligned inside present reached] at found
  obtain ⟨former, stands, rfl⟩ := Option.map_eq_some_iff.mp found
  have below := Tree.reaches_value reached (chain?_eq_some stands).2.1
  apply (config.sources_twin mirrors root tidy aligned inside present below fun source =>
    again.positionalValue? source 0 = none).mpr
  intro source member indexed
  rw [mirrors.positionalValue? (below.trans (Tree.below_of_within member)),
    done former stands source member indexed]
  rfl

end ExtractChainArguments

end

def RuleSpec.config? {config : Type} (spec : RuleSpec) (title : String)
    (read : Params → Except SpecError config) : Option config :=
  if spec.id = title then (read ⟨spec.id, spec.params⟩).toOption else none

/-- The argument of a call that the rule of a specification compares by its text, if it does. -/
def RuleSpec.compared? (spec : RuleSpec) (tree : Tree) (call : NodeId) : Option NodeId :=
  ((spec.config? "remove_argument" RemoveArgument.ofParams).bind fun config =>
      config.compared? tree call).or
    ((spec.config? "rename_method_by_argument" RenameMethodByArgument.ofParams).bind fun config =>
      config.compared? tree call)

-- What rules compare by its text has the same text in both trees.
def Tree.Retells (specs : List RuleSpec) (tree again : Tree) (twin : NodeId → NodeId) : Prop :=
  ∀ spec ∈ specs, ∀ call ∈ tree.descendants tree.root, ∀ value ∈ spec.compared? tree call,
    again.trimmedText? (twin value) = tree.trimmedText? value

instance (specs : List RuleSpec) (tree again : Tree) (twin : NodeId → NodeId) :
    Decidable (tree.Retells specs again twin) :=
  inferInstanceAs (Decidable (∀ spec ∈ specs, ∀ call ∈ tree.descendants tree.root,
    ∀ value ∈ spec.compared? tree call, again.trimmedText? (twin value) = tree.trimmedText? value))

/-- Only two of the rules read the text of a node. -/
theorem Tree.retells_of_other {specs : List RuleSpec}
    (other : ∀ spec ∈ specs, spec.id ≠ "remove_argument" ∧ spec.id ≠ "rename_method_by_argument")
    (tree again : Tree) (twin : NodeId → NodeId) : tree.Retells specs again twin := by
  intro spec member call _ value compared
  obtain ⟨keeps, decides⟩ := other spec member
  rw [RuleSpec.compared?, RuleSpec.config?, RuleSpec.config?, if_neg keeps, if_neg decides]
    at compared
  cases compared

namespace Catalog

theorem Makes.unoffered {title : String} {rule : Rule} (makes : Makes title rule) :
    rule.kinds.contains .literal = false ∧ rule.kinds.contains .argumentList = false := by
  cases makes <;> exact ⟨rfl, rfl⟩

end Catalog

theorem RuleSpec.compared?_of_removal {spec : RuleSpec} {config : RemoveArgument}
    (named : spec.id = "remove_argument")
    (read : RemoveArgument.ofParams ⟨spec.id, spec.params⟩ = .ok config) (tree : Tree)
    (call : NodeId) : spec.compared? tree call = config.compared? tree call := by
  rw [compared?, config?, config?, if_pos named, read, named, if_neg (by decide)]
  exact Option.or_none

theorem RuleSpec.compared?_of_renaming {spec : RuleSpec} {config : RenameMethodByArgument}
    (named : spec.id = "rename_method_by_argument")
    (read : RenameMethodByArgument.ofParams ⟨spec.id, spec.params⟩ = .ok config) (tree : Tree)
    (call : NodeId) : spec.compared? tree call = config.compared? tree call := by
  rw [compared?, config?, config?, if_pos named, read, named, if_neg (by decide)]
  exact Option.none_or

section

variable {tree again : Tree} {twin : NodeId → NodeId} (mirrors : tree.Mirrors again twin)
variable (root : twin tree.root = again.root) (tidy : tree.Tidy tree.root)
variable (aligned : again.Tidy again.root) (filed : tree.Filed) (refiled : again.Filed)

theorem Tree.Mirrors.checkpoint (mirrors : tree.Mirrors again twin) :
    tree.checkpoint.Mirrors again.checkpoint twin := by
  intro id reached
  have former : tree.Reaches id :=
    Tree.Below.of_nodes (show tree.checkpoint.nodes = tree.nodes from rfl) reached
  obtain ⟨shape, other, here, there, reread⟩ := mirrors former
  refine ⟨shape, other, here, there, ?_⟩
  cases reread with
  | same => exact .same shape
  | object created encloses => exact .object created encloses
  | list empty => exact .list empty
  | null => exact .null

theorem Rule.Acts.rests_twin {rule : Rule} (acts : rule.Acts) (filed : tree.Filed) {context : Context}
    {id : NodeId} (offered : (tree.kind? id).any rule.kinds.contains)
    (rests : rule.Rests context tree id)
    (same : rule.accepts again.checkpoint (twin id) context = rule.accepts tree.checkpoint id context) :
    rule.Rests context again (twin id) :=
  Or.inl (same.trans (acts.refuses filed offered rests))

variable {id : NodeId} (reached : tree.Reaches id)

include mirrors root tidy aligned filed refiled reached

theorem RuleSpec.rests_twin {spec : RuleSpec} {rule : Rule} {context : Context}
    (created : spec.create = .ok rule)
    (told : ∀ value ∈ spec.compared? tree id,
      again.trimmedText? (twin value) = tree.trimmedText? value)
    (rests : (tree.kind? id).any rule.kinds.contains → rule.Rests context tree id)
    (offered : (again.kind? (twin id)).any rule.kinds.contains) :
    rule.Rests context again (twin id) := by
  have makes := Catalog.makes_of_create created
  have also : (tree.kind? id).any rule.kinds.contains := by
    rcases mirrors.kind?_or reached with same | ⟨_, literal⟩
    · exact same ▸ offered
    · rw [literal, Option.any_some, makes.unoffered.1] at offered
      cases offered
  replace rests := rests also
  have opened : tree.checkpoint.Mirrors again.checkpoint twin := mirrors.checkpoint
  have starts : tree.checkpoint.Reaches id :=
    Tree.Below.of_nodes (show tree.nodes = tree.checkpoint.nodes from rfl) reached
  -- What is compared depends on the configuration, so the two rules that compare are told by name.
  by_cases removes : spec.id = "remove_argument"
  · obtain ⟨config, read, rfl⟩ := RuleSpec.config_of_create rfl created removes
    rw [compared?_of_removal removes read] at told
    refine Rule.Acts.rests_twin config.acts filed also rests ?_
    exact config.accepts_twin opened starts told
  by_cases renames : spec.id = "rename_method_by_argument"
  · obtain ⟨config, read, rfl⟩ := RuleSpec.config_of_create rfl created renames
    rw [compared?_of_renaming renames read] at told
    refine Rule.Acts.rests_twin config.acts filed also rests ?_
    exact config.accepts_twin opened starts told
  have inside := Tree.contains_of_kind? filed.rooted
  have present := Tree.contains_of_kind? refiled.rooted
  generalize spec.id = title at makes removes renames
  cases makes with
  | renameFunction config =>
      refine Rule.Acts.rests_twin config.acts filed also rests ?_
      exact congrArg (Except.ok ∘ Option.isSome) (config.target?_twin opened starts)
  | renameMethod config =>
      refine Rule.Acts.rests_twin config.acts filed also rests ?_
      exact congrArg (Except.ok ∘ Option.isSome) (config.target?_twin opened starts)
  | renameType config =>
      refine Rule.Acts.rests_twin config.acts filed also rests ?_
      have other : tree.kind? id ≠ some .program := by
        rw [Tree.kind_of_any also]
        exact nofun
      exact congrArg (Except.ok ∘ Option.isSome) (config.target?_twin opened starts root
        (tidy.of_nodes rfl) (aligned.of_nodes rfl) filed.rooted other)
  | wrapArguments config =>
      refine Rule.Acts.rests_twin config.acts filed also rests ?_
      exact congrArg Except.ok (config.accepts_twin opened starts)
  | stringToClassConstant config =>
      refine Rule.Acts.rests_twin config.acts filed also rests ?_
      exact config.accepts_twin opened starts context.symbols
  | newToBuilder config =>
      rw [NewToBuilder.rests_iff_done] at rests ⊢
      exact NewToBuilder.done_twin opened starts rests
  | extractChainArguments config =>
      rw [ExtractChainArguments.rests_iff_done filed] at rests
      rw [ExtractChainArguments.rests_iff_done refiled]
      exact config.done_twin opened root (tidy.of_nodes rfl) (aligned.of_nodes rfl) inside
        present starts rests
  | removeArgument => exact absurd rfl removes
  | renameMethodByArgument => exact absurd rfl renames

omit reached

/-- Where every node rests, so does every node of the tree that the text is read as. -/
theorem Catalog.rests_again {specs : List RuleSpec} {rules : List Rule}
    (built : Catalog.build specs = .ok rules) (told : tree.Retells specs again twin)
    {context : Context} (rests : ∀ id, tree.Reaches id → Pass.Rests rules context tree id)
    {place : NodeId} (reached : again.Reaches place) : Pass.Rests rules context again place := by
  intro rule member offered
  obtain ⟨spec, among, created⟩ := Catalog.created_of_build built rule member
  have inside := Tree.contains_of_kind? filed.rooted
  rw [Tree.Reaches, ← root] at reached
  rcases mirrors.of_below .self reached with ⟨id, below, rfl⟩ | added
  · have listed := (tidy.mem_descendants inside).mpr below
    exact RuleSpec.rests_twin mirrors root tidy aligned filed refiled below created
      (told spec among id listed) (rests _ below rule member) offered
  · have makes := Catalog.makes_of_create created
    cases added with
    | @parentheses object below new shape =>
        generalize spec.id = title at makes
        have done := rests _ below rule member
        rw [new] at done
        rw [Tree.kind?_of_shape? shape] at offered
        cases makes with
        | newToBuilder config =>
            have opened : tree.checkpoint.Mirrors again.checkpoint twin := mirrors.checkpoint
            rw [NewToBuilder.rests_iff_done] at done ⊢
            exact NewToBuilder.done_parentheses opened
              (Tree.Below.of_nodes (show tree.nodes = tree.checkpoint.nodes from rfl) below)
              (done rfl) new shape
        | _ => cases offered
    | list shape =>
        rw [Tree.kind?_of_shape? shape, Option.any_some, Shape.kind, makes.unoffered.2] at offered
        cases offered

end

end Codemod
