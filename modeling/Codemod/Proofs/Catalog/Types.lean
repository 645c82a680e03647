import Codemod.Proofs.Catalog.Chains
import Codemod.Proofs.Catalog.Renaming
import Codemod.Proofs.Run.Endless
import Codemod.Proofs.Tree.Origins
import Codemod.Proofs.Tree.Parsed

/-!
Where the types of a program stand. Whether a node stands for a type is told from the slots above it,
and this agrees with what the node was made from, for types nested to any depth. So a pass that renames
types gives every type that the table names its new name, and leaves all other names alone. Main
statement: `RenameType.pass_renames_hints`.
-/

namespace Codemod

def Kind.holdsTypes : Kind → Bool
  | .verbatim | .parameter | .classMethod => true
  | _ => false

theorem Shape.free_of_types {shape : Shape} (plain : shape.kind.holdsTypes = false) :
    ∀ child ∈ shape.children, child.1 ≠ .type ∧ child.1 ≠ .returnType ∧ child.1 ≠ .part := by
  cases shape with
  | verbatim | parameter | classMethod => cases plain
  | _ => simp [children, tagged, or_imp, forall_and]

namespace Tree

variable {tree : Tree} {source : String} {origins : List Origin}

theorem mem_dropLast_of_getLast? {ids : List NodeId} {id : NodeId} (member : id ∈ ids)
    (other : ids.getLast? ≠ some id) : id ∈ ids.dropLast := by
  rcases ids.eq_nil_or_concat with rfl | ⟨front, last, rfl⟩
  · cases member
  · rw [List.concat_eq_append] at member other ⊢
    rw [List.getLast?_concat] at other
    rw [List.dropLast_concat]
    rcases List.mem_append.mp member with before | same
    · exact before
    · exact absurd (congrArg some (List.mem_singleton.mp same).symm) other

/-- One step up: a part of a type stands for one if the type does; otherwise the place in the node
above decides. -/
theorem inTypePosition_cases {parent id : NodeId} {slot : Slot} {shape : Shape} (depth : Nat)
    (points : tree.parent? id = some ⟨parent, slot⟩) (found : tree.shape? parent = some shape)
    (held : (slot, id) ∈ shape.children) :
    (∃ parts, shape = .verbatim "type" parts ∧ id ∈ shape.typePlaces
        ∧ tree.inTypePosition (depth + 1) id = tree.inTypePosition depth parent)
      ∨ (tree.inTypePosition (depth + 1) id = true ∧ id ∈ shape.typePlaces)
      ∨ (tree.inTypePosition (depth + 1) id = false ∧ id ∈ shape.plainPlaces) := by
  rw [inTypePosition, points]
  cases shape with
  | verbatim label parts =>
      obtain ⟨member, rfl⟩ : id ∈ parts ∧ slot = .part := by
        simpa [Shape.children, Shape.tagged, eq_comm, and_comm] using held
      simp only [found]
      by_cases type : label = "type"
      · subst type
        exact Or.inl ⟨parts, rfl, member, rfl⟩
      · right
        rw [if_neg type, Shape.typePlaces, Shape.plainPlaces, if_neg type, if_neg type]
        -- The last part of a function is its body, and those before it may be types.
        by_cases function : Shape.isFunction label
        · rw [if_pos function, if_pos function]
          by_cases last : parts.getLast? = some id
          · right
            simp [last]
          · left
            refine ⟨?_, mem_dropLast_of_getLast? member last⟩
            rw [Shape.isFunction] at function
            simp only [function, Bool.true_and]
            exact bne_iff_ne.mpr last
        · right
          rw [if_neg function]
          rw [Shape.isFunction, Bool.not_eq_true] at function
          exact ⟨by simp only [function, Bool.false_and], member⟩
  | parameter hint byRef variadic holder default =>
      right
      simp only [Shape.children, Shape.tagged, List.mem_append, List.mem_cons, List.mem_map] at held
      rcases held with ⟨type, member, same⟩ | same | ⟨value, member, same⟩
      · cases same
        exact Or.inl ⟨rfl, member⟩
      · cases same
        exact Or.inr ⟨rfl, List.mem_cons_self⟩
      · cases same
        exact Or.inr ⟨rfl, List.mem_cons_of_mem _ member⟩
  | classMethod modifiers title parameters returnType body =>
      right
      simp only [Shape.children, Shape.tagged, List.mem_append, List.mem_cons, List.mem_map] at held
      rcases held with ((same | ⟨param, member, same⟩) | ⟨type, member, same⟩) | ⟨block, member, same⟩
      · cases same
        exact Or.inr ⟨rfl, by simp [Shape.plainPlaces]⟩
      · cases same
        exact Or.inr ⟨rfl, by simp [Shape.plainPlaces, member]⟩
      · cases same
        exact Or.inl ⟨rfl, member⟩
      · cases same
        exact Or.inr ⟨rfl, by simpa [Shape.plainPlaces] using Or.inr (Or.inr member)⟩
  | _ =>
      right
      right
      refine ⟨?_, List.mem_map_of_mem (f := Prod.snd) held⟩
      have other := Shape.free_of_types rfl _ held
      cases slot with
      | type | returnType | part => simp at other
      | _ => rfl

/-- A node that is no parameter stands for a type exactly if it was made from one. -/
theorem inTypePosition_iff {program : List Php.Statement} {depth : Nat} {id : NodeId} {origin : Origin}
    (made : originAt (Php.origins source program) id = some origin) (other : origin.role ≠ .parameter)
    (deep : (ofProgram source program).size ≤ depth + id.index) :
    (ofProgram source program).inTypePosition depth id = true ↔ origin.role = .type := by
  have listed := ofProgram_listed source program
  have fresh := ofProgram_read source program
  have size := listed.size
  -- What holds a node is listed behind it, so on the way up the depth is enough until the root.
  induction depth generalizing id origin with
  | zero =>
      have inside := originAt_isSome_iff.mp (Option.isSome_of_eq_some made)
      omega
  | succ depth ih =>
      have inside := originAt_isSome_iff.mp (Option.isSome_of_eq_some made)
      by_cases root : id = (ofProgram source program).root
      · rw [root, originAt_root] at made
        cases made
        rw [root, inTypePosition, fresh.unheld]
        simp [Origin.role]
      obtain ⟨parent, slot, held⟩ :
          ∃ parent slot, (slot, id) ∈ (ofProgram source program).children parent := by
        obtain ⟨parent, taken⟩ := fresh.taken id inside.1 (by omega) root
        obtain ⟨⟨slot, _⟩, held, rfl⟩ := List.mem_map.mp taken
        exact ⟨parent, slot, held⟩
      have points : (ofProgram source program).parent? id = some ⟨parent, slot⟩ := fresh.named held
      have older : id.index < parent.index := fresh.older held
      obtain ⟨shape, found, child⟩ := shape?_of_child held
      have below : parent.index < (ofProgram source program).size :=
        of_decide_eq_true (contains_of_shape? found)
      have among : 0 < parent.index ∧ parent.index ≤ (Php.origins source program).length := by omega
      obtain ⟨above, madeAbove⟩ := Option.isSome_iff_exists.mp (originAt_isSome_iff.mpr among)
      obtain ⟨again, foundAbove, _, makes, placed⟩ := listed.made parent above madeAbove
      cases found.symm.trans foundAbove
      have plays : ∀ {role}, Plays (Php.origins source program) id role → origin.role = role := by
        rintro role ⟨same, also, plays⟩
        cases made.symm.trans also
        exact plays
      rcases inTypePosition_cases depth points found child with
        ⟨parts, rfl, member, same⟩ | ⟨answer, member⟩ | ⟨answer, member⟩
      · -- Only a type is made into a type in parts, and its parts are types with it.
        have type : above.role = .type := Origin.role_of_makes makes
        have stands := (ih madeAbove (by simp [type]) (by omega)).mpr type
        exact iff_of_true (same.trans stands)
          ((placed.types id member).elim plays fun is => absurd (plays is) other)
      · exact iff_of_true answer
          ((placed.types id member).elim plays fun is => absurd (plays is) other)
      · rw [answer]
        refine iff_of_false Bool.false_ne_true fun type => ?_
        rcases placed.plain id member with plain | parameter
        · cases type.symm.trans (plays plain)
        · exact other (plays parameter)

/-- Other spellings of names move no type. -/
theorem Respelled.inTypePosition {after : Tree} {names : List (NodeId × String)}
    (respelled : tree.Respelled names after) (depth : Nat) (id : NodeId) :
    after.inTypePosition depth id = tree.inTypePosition depth id := by
  induction depth generalizing id with
  | zero => rfl
  | succ depth ih =>
      rw [Tree.inTypePosition, Tree.inTypePosition, respelled.parent?]
      cases points : tree.parent? id with
      | none => rfl
      | some link =>
          obtain ⟨parent, slot⟩ := link
          have shape := respelled.shape? parent
          cases renamed : names.lookup parent with
          | none =>
              rw [renamed] at shape
              dsimp only
              rw [shape]
              simp only [ih]
          | some name =>
              obtain ⟨former, spelled⟩ := respelled.spelled renamed
              rw [renamed] at shape
              dsimp only
              rw [shape, spelled]

end Tree

namespace RenameType

variable {config : RenameType} {tree : Tree} {id : NodeId} {name : String}

def newTitle? (config : RenameType) (tree : Tree) (id : NodeId) : Option String :=
  if tree.kind? id = some .name then config.target? tree id else none

theorem newTitle?_eq_some_iff : config.newTitle? tree id = some name
    ↔ ∃ title text, tree.shape? id = some (.name title) ∧ config.mappings.find? title = some text
      ∧ Name.reference text = name ∧ name ≠ title ∧ tree.inTypePosition tree.size id = true := by
  rw [newTitle?]
  constructor
  · intro renames
    obtain ⟨kind, targeted⟩ := Option.ite_none_right_eq_some.mp renames
    obtain ⟨title, spelled⟩ : ∃ title, tree.shape? id = some (.name title) := by
      obtain ⟨shape, found, named⟩ := Option.map_eq_some_iff.mp kind
      cases shape with
      | name title => exact ⟨title, found⟩
      | _ => cases named
    rw [target?, Tree.nameOf?, spelled] at targeted
    obtain ⟨_, same, named⟩ := Option.bind_eq_some_iff.mp targeted
    cases same
    obtain ⟨text, found, decided⟩ := Option.bind_eq_some_iff.mp named
    obtain ⟨⟨differs, stands⟩, same⟩ := Option.ite_none_right_eq_some.mp decided
    cases same
    exact ⟨title, text, spelled, found, rfl, differs, stands⟩
  · rintro ⟨title, text, spelled, found, rfl, differs, stands⟩
    have kind : tree.kind? id = some .name := by
      rw [Tree.kind?, spelled]
      rfl
    rw [if_pos kind, target?, Tree.nameOf?, spelled]
    simp [Shape.nameText?, found, differs, stands]

def renaming? (config : RenameType) (tree : Tree) (id : NodeId) : Option (NodeId × String) :=
  (config.newTitle? tree id).map (id, ·)

theorem lookup_renamings (ids : List NodeId) :
    (ids.filterMap (config.renaming? tree)).lookup id
      = if id ∈ ids then config.newTitle? tree id else none := by
  induction ids with
  | nil => rfl
  | cons other rest ih =>
      rw [List.filterMap_cons, renaming?]
      by_cases here : id = other
      · subst here
        cases new : config.newTitle? tree id with
        | none => simp [ih, new]
        | some name => simp
      · have apart : (id == other) = false := beq_false_of_ne here
        cases config.newTitle? tree other with
        | none => simp [ih, here]
        | some name => simp [List.lookup_cons, ih, here, apart]

theorem offered_iff : (tree.kind? id).any config.rule.kinds.contains = true
    ↔ tree.kind? id = some .name := by
  cases tree.kind? id <;> simp [rule]

/-- Whatever was renamed before, a node that was not visited is offered as it was. -/
theorem newTitle?_respelled {done : List NodeId} {after : Tree}
    (respelled : tree.Respelled (done.filterMap (config.renaming? tree)) after) (fresh : id ∉ done) :
    config.newTitle? after id = config.newTitle? tree id := by
  have kept : after.shape? id = tree.shape? id := by
    rw [respelled.shape?, lookup_renamings, if_neg fresh]
  rw [newTitle?, newTitle?, target?, target?, Tree.kind?, Tree.kind?, Tree.nameOf?, Tree.nameOf?, kept,
    respelled.size]
  simp only [respelled.inTypePosition]

section

variable (context : Context) (log : Log)

theorem target?_checkpoint : config.target? tree.checkpoint id = config.target? tree id := by
  have opened : tree.Respelled [] tree.checkpoint := tree.respelled_nil.of_commit rfl
  rw [target?, target?]
  simp only [opened.inTypePosition]
  rfl

theorem answerAt_keeps (keeps : config.newTitle? tree id = none) :
    ∃ later, later.commit = tree.commit
      ∧ Pass.answerAt [config.rule] context id tree log = (.unchanged, later, log) := by
  rw [Pass.answerAt, Pass.offer]
  by_cases kind : tree.kind? id = some .name
  · have declined : config.target? tree id = none := by
      rwa [newTitle?, if_pos kind] at keeps
    have answers : config.rule.accepts tree.checkpoint id context = .ok false :=
      congrArg (fun found => Except.ok (Option.isSome found)) (target?_checkpoint.trans declined)
    rw [if_pos (offered_iff.mpr kind), Pass.applyRule_declines context _ _ answers]
    exact ⟨tree.commit, rfl, rfl⟩
  · rw [if_neg (offered_iff.not.mpr kind)]
    exact ⟨tree, rfl, rfl⟩

theorem answerAt_renames (renames : config.newTitle? tree id = some name) :
    ∃ entries, Pass.answerAt [config.rule] context id tree log
      = (.unchanged, ((tree.checkpoint.recordNode id).setData id (.name name)).bump.commit,
        entries) := by
  obtain ⟨kind, targeted⟩ := Option.ite_none_right_eq_some.mp renames
  obtain ⟨title, _, spelled, _, _, differs, _⟩ := newTitle?_eq_some_iff.mp renames
  have found : config.target? tree.checkpoint id = some name := target?_checkpoint.trans targeted
  have answers : config.rule.accepts tree.checkpoint id context = .ok true :=
    congrArg (fun found => Except.ok (Option.isSome found)) found
  have opened : tree.checkpoint.shape? id = some (.name title) := spelled
  have sets := Tree.run_setName_other opened differs
  have applies : (config.rule.apply id context).run tree.checkpoint = (.ok .unchanged,
      ((tree.checkpoint.recordNode id).setData id (.name name)).bump) := by
    have unfolded : (config.rule.apply id context).run tree.checkpoint
        = (config.apply id).run tree.checkpoint := rfl
    rw [unfolded, apply, Step.run_bind_ok (RuleStep.run_get _)]
    dsimp only
    rw [found]
    dsimp only
    rw [Step.run_bind_ok (RuleStep.run_lift sets)]
    rfl
  obtain ⟨entries, applied⟩ :=
    Pass.applyRule_done context (tree.parent? id) (tree.anchor? id) answers applies rfl log
  refine ⟨entries, ?_⟩
  rw [Pass.answerAt, Pass.offer, if_pos (offered_iff.mpr kind), applied]
  rfl

/-- A visit renames the node if it is to be renamed, and goes on as it was. -/
theorem visit_respells {done : List NodeId} {after : Tree}
    (respelled : tree.Respelled (done.filterMap (config.renaming? tree)) after) (fresh : id ∉ done) :
    ∃ later entries, Pass.answerAt [config.rule] context id after log = (.unchanged, later, entries)
      ∧ after.Matches later
      ∧ tree.Respelled ((done ++ [id]).filterMap (config.renaming? tree)) later := by
  have same := newTitle?_respelled respelled fresh
  cases renames : config.newTitle? tree id with
  | none =>
      obtain ⟨later, still, answers⟩ := answerAt_keeps context log (same.trans renames)
      have kept := respelled.of_commit still
      refine ⟨later, log, answers, respelled.same.between kept.same, ?_⟩
      simpa [renaming?, renames] using kept
  | some name =>
      obtain ⟨entries, answers⟩ := answerAt_renames context log (same.trans renames)
      obtain ⟨title, _, spelled, _⟩ := newTitle?_eq_some_iff.mp renames
      have unnamed : (done.filterMap (config.renaming? tree)).lookup id = none := by
        rw [lookup_renamings, if_neg fresh]
      have opened : tree.Respelled _ after.checkpoint := respelled.of_commit rfl
      have more : tree.Respelled (done.filterMap (config.renaming? tree) ++ [(id, name)])
          ((after.checkpoint.recordNode id).setData id (.name name)).bump.commit :=
        (opened.setName spelled unnamed).of_commit rfl
      refine ⟨_, entries, answers, respelled.same.between more.same, ?_⟩
      simpa [renaming?, renames] using more

end

variable (config) in
/-- A pass gives each node that is reached its new name, as the tree was before the pass. -/
theorem pass_respells {steps : Nat} (planned : Walk.Planned .idle tree)
    (enough : 2 * tree.size ≤ steps) (context : Context) (log : Log) :
    ∃ walk, Walk.run (Pass.visitor [config.rule] context) steps tree log tree.root = (.ok (), walk)
      ∧ tree.Respelled ((tree.descendants tree.root).filterMap (config.renaming? tree)) walk.tree := by
  have follows : Walk.Follows .idle tree (Pass.visitor [config.rule] context)
      fun done after _ => tree.Respelled (done.filterMap (config.renaming? tree)) after := by
    constructor
    · intro done id later walk order respelled
      obtain ⟨after, entries, answers, same, more⟩ :=
        visit_respells context walk.state respelled (Walk.not_mem_done planned order)
      refine ⟨after, entries, ?_, same, more⟩
      rw [Pass.run_visitor, answers]
      rfl
    · exact fun changed => absurd rfl changed
  obtain ⟨walk, ran, shown⟩ := Walk.run_shown planned follows enough (tree.respelled_nil)
  exact ⟨walk, ran, Plan.itinerary_idle planned.tidy ▸ shown.noted⟩

variable {source : String} {program : List Php.Statement}

/-- A name of a program stands for a type exactly if it was made from one. -/
theorem inTypePosition_name {title : String}
    (spelled : (Tree.ofProgram source program).shape? id = some (.name title)) :
    (Tree.ofProgram source program).inTypePosition (Tree.ofProgram source program).size id = true
      ↔ ∃ hint, Tree.originAt (Php.origins source program) id = some (.hint hint) := by
  have listed := Tree.ofProgram_listed source program
  have size := listed.size
  have inside : id.index < (Tree.ofProgram source program).size :=
    of_decide_eq_true (Tree.contains_of_shape? spelled)
  have later : id.index ≠ 0 := by
    intro first
    rw [show id = ⟨0⟩ from congrArg NodeId.mk first, listed.first] at spelled
    cases spelled
  have among : 0 < id.index ∧ id.index ≤ (Php.origins source program).length := by omega
  obtain ⟨origin, made⟩ := Option.isSome_iff_exists.mp (Tree.originAt_isSome_iff.mpr among)
  obtain ⟨shape, found, _, makes, _⟩ := listed.made id origin made
  cases spelled.symm.trans found
  rw [Tree.inTypePosition_iff made (Origin.not_parameter makes) (Nat.le_add_right ..),
    Origin.role_eq_type_iff, made]
  simp

/-- Every name of a program is reached, so a pass gives each its new name. -/
theorem pass_retitles (config : RenameType) {steps : Nat}
    (enough : 2 * (Tree.ofProgram source program).size ≤ steps) (context : Context) (log : Log) :
    ∃ walk, Walk.run (Pass.visitor [config.rule] context) steps (Tree.ofProgram source program) log
        (Tree.ofProgram source program).root = (.ok (), walk)
      ∧ (Tree.ofProgram source program).Matches walk.tree
      ∧ ∀ id, walk.tree.shape? id = match config.newTitle? (Tree.ofProgram source program) id with
        | some name => some (.name name)
        | none => (Tree.ofProgram source program).shape? id := by
  have fresh := Tree.ofProgram_read source program
  have inside : (Tree.ofProgram source program).contains (Tree.ofProgram source program).root :=
    Tree.contains_of_kind? Tree.ofProgram_rooted
  have planned : Walk.Planned .idle (Tree.ofProgram source program) :=
    ⟨fresh.intact.heldOnce, inside, fresh.unheld, Plan.fits_idle _⟩
  obtain ⟨walk, ran, respelled⟩ := config.pass_respells planned enough context log
  refine ⟨walk, ran, respelled.same, fun id => ?_⟩
  have shape := respelled.shape? id
  rw [lookup_renamings] at shape
  by_cases reached : id ∈ (Tree.ofProgram source program).descendants (Tree.ofProgram source program).root
  · rw [if_pos reached] at shape
    exact shape
  · rw [if_neg reached] at shape
    cases renames : config.newTitle? (Tree.ofProgram source program) id with
    | none => exact shape
    | some name =>
        obtain ⟨kind, _⟩ := Option.ite_none_right_eq_some.mp renames
        exact absurd ((planned.tidy.mem_descendants inside).mpr (Tree.ofProgram_reaches kind nofun))
          reached

/-- In the tree of a program a name stands for a type exactly if it was made from the type of a
parameter or of a result, however deep it is in that type; every node is told what it was made from by
the constructs of the program in order. So one pass that renames types gives each such name that the
table has the new name, and changes no other node: no callee, class, constant or method name, and no
name that is an expression. -/
theorem pass_renames_hints (source : String) (program : List Php.Statement) (config : RenameType) :
    let tree := Tree.ofProgram source program
    let made := Tree.originAt (Php.origins source program)
    Tree.Listed source (Php.origins source program) tree
      ∧ (∀ id title, tree.shape? id = some (.name title) →
        (tree.inTypePosition tree.size id = true ↔ ∃ hint, made id = some (.hint hint)))
      ∧ ∀ context log steps, 2 * tree.size ≤ steps → ∃ walk,
        Walk.run (Pass.visitor [config.rule] context) steps tree log tree.root = (.ok (), walk)
          ∧ tree.Matches walk.tree
          ∧ (∀ id hint title text, made id = some (.hint hint) →
            tree.shape? id = some (.name title) → config.mappings.find? title = some text →
              walk.tree.shape? id = some (.name (Name.reference text)))
          ∧ ∀ id, walk.tree.shape? id ≠ tree.shape? id ↔ ∃ hint title text,
            made id = some (.hint hint) ∧ tree.shape? id = some (.name title)
              ∧ config.mappings.find? title = some text ∧ Name.reference text ≠ title := by
  intro tree made
  refine ⟨Tree.ofProgram_listed source program, fun id title => inTypePosition_name, ?_⟩
  intro context log steps enough
  obtain ⟨walk, ran, same, shapes⟩ := config.pass_retitles enough context log
  have renames_iff : ∀ {id name}, config.newTitle? tree id = some name ↔ ∃ title text,
      tree.shape? id = some (.name title) ∧ config.mappings.find? title = some text
        ∧ Name.reference text = name ∧ name ≠ title ∧ tree.inTypePosition tree.size id = true :=
    newTitle?_eq_some_iff
  refine ⟨walk, ran, same, ?_, fun id => ⟨?_, ?_⟩⟩
  · intro id hint title text type spelled found
    rw [shapes]
    by_cases differs : Name.reference text = title
    · -- The name is spelled as the table has it already.
      have keeps : config.newTitle? tree id = none := by
        rw [Option.eq_none_iff_forall_ne_some]
        intro name renames
        obtain ⟨_, _, also, again, same, other, _⟩ := renames_iff.mp renames
        cases spelled.symm.trans also
        cases found.symm.trans again
        exact other (same ▸ differs)
      rw [keeps, differs]
      exact spelled
    · have stands := (inTypePosition_name spelled).mpr ⟨hint, type⟩
      rw [renames_iff.mpr ⟨title, text, spelled, found, rfl, differs, stands⟩]
  · intro changed
    rw [shapes] at changed
    cases renames : config.newTitle? tree id with
    | none =>
        rw [renames] at changed
        exact absurd rfl changed
    | some name =>
        obtain ⟨title, text, spelled, found, rfl, differs, stands⟩ := renames_iff.mp renames
        obtain ⟨hint, type⟩ := (inTypePosition_name spelled).mp stands
        exact ⟨hint, title, text, type, spelled, found, differs⟩
  · rintro ⟨hint, title, text, type, spelled, found, differs⟩
    have stands := (inTypePosition_name spelled).mpr ⟨hint, type⟩
    rw [shapes, renames_iff.mpr ⟨title, text, spelled, found, rfl, differs, stands⟩, spelled]
    exact fun same => differs (Shape.name.inj (Option.some.inj same))

def arrowSource : String :=
  "fn(?A $a): B|A => A;"

-- An arrow function whose body is a name that is also in the type of its result.
def arrowProgram : List Php.Statement :=
  [.expression ⟨0, 20⟩ (.arrowFunction ⟨0, 19⟩
    [.mk ⟨3, 8⟩ (some (.wrapped ⟨3, 5⟩ (.name ⟨4, 5⟩))) false false ⟨6, 8⟩ none]
    (some (.joined ⟨11, 14⟩ (.name ⟨11, 12⟩) (.name ⟨13, 14⟩))) (.identifier ⟨18, 19⟩))]

def arrowTree : Tree :=
  Tree.ofProgram arrowSource arrowProgram

def arrowMade : NodeId → Option Origin :=
  Tree.originAt (Php.origins arrowSource arrowProgram)

def emails : RenameType :=
  ⟨[("a", "Mime\\Email")]⟩

/-- Both types are renamed, the one in the union with its neighbour left alone, and the body keeps its
name. -/
theorem pass_renames_hints_arrow : ∃ walk,
    Walk.run (Pass.visitor [emails.rule] {}) 24 arrowTree {} arrowTree.root = (.ok (), walk)
      ∧ walk.tree.shape? ⟨1⟩ = some (.name "\\Mime\\Email")
      ∧ walk.tree.shape? ⟨5⟩ = some (.name "B")
      ∧ walk.tree.shape? ⟨6⟩ = some (.name "\\Mime\\Email")
      ∧ walk.tree.shape? ⟨8⟩ = some (.name "A") := by
  have spelled : arrowTree.shape? ⟨1⟩ = some (.name "A") ∧ arrowTree.shape? ⟨5⟩ = some (.name "B")
      ∧ arrowTree.shape? ⟨6⟩ = some (.name "A") ∧ arrowTree.shape? ⟨8⟩ = some (.name "A") := by
    decide +kernel
  have looked : emails.mappings.find? "A" = some "Mime\\Email" ∧ emails.mappings.find? "B" = none
      ∧ Name.reference "Mime\\Email" = "\\Mime\\Email" := by
    decide +kernel
  have roles : (arrowMade ⟨1⟩).map Origin.role = some .type ∧ (arrowMade ⟨6⟩).map Origin.role = some .type
      ∧ (arrowMade ⟨8⟩).map Origin.role = some .plain := by
    decide +kernel
  obtain ⟨first, second, third, body⟩ := spelled
  obtain ⟨known, unknown, reference⟩ := looked
  obtain ⟨_, _, passes⟩ := pass_renames_hints arrowSource arrowProgram emails
  obtain ⟨walk, ran, _, renamed, changed⟩ := passes {} {} 24 (by decide +kernel)
  have typed : ∀ id, (arrowMade id).map Origin.role = some .type →
      ∃ hint, arrowMade id = some (.hint hint) := by
    intro id role
    obtain ⟨origin, made, same⟩ := Option.map_eq_some_iff.mp role
    obtain ⟨hint, rfl⟩ := Origin.role_eq_type_iff.mp same
    exact ⟨hint, made⟩
  refine ⟨walk, ran, ?_, ?_, ?_, ?_⟩
  · obtain ⟨hint, type⟩ := typed ⟨1⟩ roles.1
    rw [← reference]
    exact renamed ⟨1⟩ hint "A" _ type first known
  · refine (not_not.mp ((changed ⟨5⟩).not.mpr ?_)).trans second
    rintro ⟨_, title, text, _, named, found, _⟩
    cases second.symm.trans named
    cases unknown.symm.trans found
  · obtain ⟨hint, type⟩ := typed ⟨6⟩ roles.2.1
    rw [← reference]
    exact renamed ⟨6⟩ hint "A" _ type third known
  · -- The body was made from an expression.
    refine (not_not.mp ((changed ⟨8⟩).not.mpr ?_)).trans body
    rintro ⟨hint, _, _, type, _⟩
    have made : arrowMade ⟨8⟩ = some (.hint hint) := type
    have plain := roles.2.2
    rw [made] at plain
    cases plain

end RenameType

end Codemod
