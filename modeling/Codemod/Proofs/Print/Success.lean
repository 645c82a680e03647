import Codemod.Proofs.Edit.Blind
import Codemod.Proofs.Edit.Rollback
import Codemod.Proofs.Print.Coverage
import Codemod.Proofs.Tree.Fresh

/-!
When printing succeeds. Edits never spoil the layouts that were read, and no edit adds a part to a
verbatim node, so on every tree that a history of edits and transactions leads to, printing fails
for two reasons only: a node that is not held once, or a verbatim node without a source.
-/

namespace Codemod

theorem Shape.kind_store (shape : Shape) (slot : Slot) (filled : Storage) :
    (shape.store slot filled).kind = shape.kind := by
  unfold Shape.store
  split <;> rfl

theorem Shape.storage?_verbatim {label : String} {parts : List NodeId} {slot : Slot}
    {storage : Storage} (holds : (Shape.verbatim label parts).storage? slot = some storage) :
    slot = .part ∧ storage = .many parts := by
  cases slot <;> cases holds
  exact ⟨rfl, rfl⟩

theorem Shape.store_verbatim {shape : Shape} {slot : Slot} {former filled : Storage}
    {dropped added : List NodeId} (holds : shape.storage? slot = some former)
    (change : former.Change slot filled dropped added)
    (verbatim : (shape.store slot filled).kind = .verbatim) :
    shape.kind = .verbatim
      ∧ (shape.store slot filled).children.length = shape.children.length := by
  rw [Shape.kind_store] at verbatim
  refine ⟨verbatim, ?_⟩
  cases shape with
  | «verbatim» label parts =>
      obtain ⟨rfl, rfl⟩ := Shape.storage?_verbatim holds
      cases change with
      | replaced differ found =>
          obtain ⟨_, stored⟩ := Option.ite_none_right_eq_some.mp found
          cases stored
          simp [Shape.store, Shape.children, Shape.tagged]
      -- The slot of the parts is required, which leaves nothing but replacements.
      | removed free => exact absurd rfl free
      | spliced replacement list => cases list
      | inserted id list => cases list
  | _ => cases verbatim

namespace Tree

variable {tree : Tree}

theorem sound_of_nodes {before after : Tree} (source : after.source = before.source)
    (nodes : after.nodes = before.nodes) (root : after.root = before.root) (sound : before.Sound) :
    after.Sound := by
  constructor
  · rw [root, contains, nodes]
    exact sound.rooted
  · intro id node found
    rw [node?, nodes] at found
    rw [source]
    exact sound.nodes found

theorem sound_of_commit {before after : Tree} (same : after.commit = before.commit) :
    before.Sound → after.Sound :=
  sound_of_nodes (source_of_commit same) (nodes_of_commit same) (root_of_commit same)

theorem sound_alter {id : NodeId} {alter : Node → Node}
    (fits : ∀ node, tree.node? id = some node → node.Sound tree.source →
      (alter node).Sound tree.source) (sound : tree.Sound) :
    Sound { tree with nodes := tree.nodes.modify id.index alter } := by
  have rooted := sound.rooted
  have every : tree.Every (Node.Sound tree.source) := fun _ _ => sound.nodes
  have kept := every_modify every fun node found => fits node found (sound.nodes found)
  exact ⟨by simpa [contains] using rooted, fun found => kept _ _ found⟩

theorem sound_setParent (id : NodeId) (link : Option Link) (sound : tree.Sound) :
    (tree.setParent id link).Sound := by
  have noted : (tree.recordLink id).Sound := sound_of_commit (tree.commit_record id _) sound
  exact sound_alter (fun node _ fit => fit) noted

theorem sound_setShape {id : NodeId} {slot : Slot} {shape : Shape} {former filled : Storage}
    {dropped added : List NodeId} (found : tree.shape? id = some shape)
    (holds : shape.storage? slot = some former)
    (change : former.Change slot filled dropped added) (sound : tree.Sound) :
    ((tree.recordNode id).setShape id (shape.store slot filled)).Sound := by
  have noted : (tree.recordNode id).Sound := sound_of_commit (tree.commit_recordNode id) sound
  refine sound_alter (fun node held fit span spanned => ?_) noted
  obtain ⟨laid, placed⟩ := fit span spanned
  refine ⟨laid, fun verbatim => ?_⟩
  obtain ⟨kind, length⟩ := Shape.store_verbatim holds change verbatim
  have same : node.shape = shape := by
    rw [recordNode, node?, record_nodes, ← node?] at held
    simpa [shape?, held] using found
  subst same
  have bounded := placed kind
  rw [← length] at bounded
  exact bounded

theorem sound_setData {id : NodeId} {shape : Shape} (leaf : shape.children = [])
    (sound : tree.Sound) : ((tree.recordNode id).setData id shape).Sound := by
  have noted : (tree.recordNode id).Sound := sound_of_commit (tree.commit_recordNode id) sound
  refine sound_alter (fun node _ fit span spanned => ⟨(fit span spanned).1, fun _ => ?_⟩) noted
  rw [leaf]
  exact Nat.zero_le _

theorem sound_append (shape : Shape) (sound : tree.Sound) : (tree.append { shape }).Sound := by
  have rooted : tree.root.index < tree.nodes.size := of_decide_eq_true sound.rooted
  constructor
  · apply decide_eq_true
    rw [append, Array.size_push]
    exact Nat.lt_succ_of_lt rooted
  · have every : tree.Every (Node.Sound tree.source) := fun _ _ => sound.nodes
    have added : Node.Sound tree.source { shape } := fun span spanned => by cases spanned
    intro id node found
    exact every_append every added id node found

theorem sound_respected : Respected fun before after => before.Sound → after.Sound where
  refl _ := id
  trans first second := second ∘ first
  bump _ := sound_of_nodes rfl rfl rfl
  recordNode tree id := sound_of_commit (tree.commit_recordNode id)
  setParent _ id link := sound_setParent id link
  setRoot tree id found sound := by
    have linked := sound_setParent id none sound
    refine ⟨?_, linked.nodes⟩
    have sizes : (tree.setParent id none).nodes.size = tree.nodes.size := by
      simp [setParent, recordLink, record_nodes]
    apply decide_eq_true
    obtain ⟨node, held⟩ := Option.isSome_iff_exists.mp found
    have present : id.index < tree.nodes.size := (Array.getElem?_eq_some_iff.mp held).1
    exact Nat.lt_of_lt_of_eq present sizes.symm
  append _ shape := sound_append shape
  setData _ _ _ _ _ _ leaf := sound_setData leaf
  setShape _ _ _ _ _ _ _ _ found holds change := sound_setShape found holds change

/-- Trees that are made or read, then edited in and out of transactions. The spans of a program that
is read lie in each other as its constructs do, in source order. -/
inductive History : Tree → Prop where
  | empty (source : String) : History (Tree.empty source)
  | parsed {source : String} {program : List Php.Statement}
      (inner : ∀ place ∈ Php.statementPlaces program, Text.Laid source place.1 place.2)
      (outer : Text.Laid source ⟨0, source.utf8ByteSize⟩ (program.map Php.Statement.span)) :
      History (Tree.ofProgram source program)
  | edited {tree : Tree} (operation : Operation) (before : History tree) :
      History (operation.after tree)
  | checkpoint {tree : Tree} (before : History tree) : History tree.checkpoint
  | commit {tree : Tree} (before : History tree) : History tree.commit
  | rollback {tree : Tree} (before : History tree) : History tree.rollback

theorem sound_lasting : Lasting Sound where
  of_commit := sound_of_commit
  after operation := sound_respected.after operation _

theorem Fresh.sound {source : String} (fresh : Fresh (Text.Laid source) source tree) : tree.Sound := by
  refine ⟨decide_eq_true fresh.rooted.2, ?_⟩
  intro id node found span spanned
  have inside : id.index < tree.size := (Array.getElem?_eq_some_iff.mp found).1
  rw [fresh.text]
  by_cases first : id.index = 0
  · have start : id = ⟨0⟩ := congrArg NodeId.mk first
    rw [start, fresh.first] at found
    cases found
    cases spanned
  · obtain ⟨again, read⟩ := fresh.read id (Nat.pos_of_ne_zero first) inside
    cases read.found.symm.trans found
    obtain ⟨there, same, laid⟩ := read.spanned
    cases same.symm.trans spanned
    exact ⟨laid, fun _ => Nat.le_of_eq read.lengths⟩

/-- Such a tree is fit to be printed, now and after rolling back. -/
theorem History.kept (history : History tree) : tree.Kept Sound := by
  induction history with
  | empty source =>
      have sound : (Tree.empty source).Sound := by
        have unread : (Tree.empty source).Every fun node => node.span = none :=
          every_empty source rfl
        refine ⟨rfl, fun found span spanned => ?_⟩
        cases (unread _ _ found).symm.trans spanned
      exact .of_closed sound rfl
  | @parsed source program inner outer =>
      have fits : OfProgram.Fit (Text.Laid source) (Php.statementPlaces program) :=
        fun place member => ⟨inner place member, (inner place member).sublist (List.nil_sublist _)⟩
      have fresh := ofProgram_fresh fits outer
      exact .of_closed fresh.sound fresh.journal
  | edited operation _ before => exact before.edited sound_lasting operation
  | checkpoint _ before => exact before.checkpoint sound_lasting
  | commit _ before => exact before.commit sound_lasting
  | rollback _ before => exact before.rollback

/-- Printing succeeds exactly on trees in which every node that can be reached is held once, by the
slot position its back-reference names, and every verbatim node has a source. Where the first fails,
the error names a node that points elsewhere or is shared; where only the second fails, a verbatim
node without a source. Spans never keep a tree from being printed. -/
theorem print_ok_iff (history : History tree) (options : PrintOptions) :
    ((∃ text, tree.print options = .ok text) ↔
        tree.HeldOnce ∧ ∀ id, tree.Reaches id → ¬ tree.Sourceless id)
      ∧ (¬ tree.HeldOnce → (∃ parent child, tree.print options = .error (.dangling parent child))
        ∨ ∃ node, tree.print options = .error (.shared node))
      ∧ (tree.HeldOnce → (∃ id, tree.Reaches id ∧ tree.Sourceless id) →
        ∃ id, tree.Reaches id ∧ tree.Sourceless id ∧ tree.print options = .error (.sourceless id))
      ∧ ∀ error, tree.print options ≠ .error (.splice error) := by
  have sound := history.kept.now
  -- What is held once passes the scan and then fails for a missing source only.
  by_cases held : tree.HeldOnce
  · have covers := print_covers sound held options
    cases printed : tree.print options with
    | ok text =>
        rw [printed] at covers
        have sourced : ∀ id, tree.Reaches id → ¬ tree.Sourceless id :=
          covers tree.root List.mem_cons_self
        refine ⟨⟨fun _ => ⟨held, sourced⟩, fun _ => ⟨text, rfl⟩⟩, fun unheld => absurd held unheld,
          ?_, nofun⟩
        rintro _ ⟨id, reached, lacks⟩
        exact absurd lacks (sourced id reached)
    | error error =>
        rw [printed] at covers
        obtain ⟨id, rfl, lacks, top, member, reached⟩ := covers
        cases List.mem_singleton.mp member
        refine ⟨⟨nofun, ?_⟩, fun unheld => absurd held unheld, fun _ _ => ⟨id, reached, lacks, rfl⟩,
          nofun⟩
        rintro ⟨_, sourced⟩
        exact absurd lacks (sourced id reached)
  · obtain ⟨error, refusal, printed⟩ := print_refuses sound held options
    rw [printed]
    refine ⟨⟨nofun, fun both => absurd both.1 held⟩, fun _ => ?_, fun both => absurd both held, ?_⟩
    · cases error with
      | dangling parent child => exact Or.inl ⟨parent, child, rfl⟩
      | shared node => exact Or.inr ⟨node, rfl⟩
      | _ => exact absurd refusal id
    · rintro spliced ⟨⟩
      exact refusal

-- The statement `f(1);`.
def callProgram : List Php.Statement :=
  [.expression ⟨6, 11⟩ (.functionCall ⟨6, 10⟩ (.identifier ⟨6, 7⟩)
    (.mk ⟨7, 10⟩ [.positional ⟨8, 9⟩ false (.literal ⟨8, 9⟩)]))]

-- The call without its argument, in an open transaction.
def emptiedCall : Tree :=
  (Operation.remove ⟨3⟩).after (Tree.ofProgram "<?php f(1);" callProgram).checkpoint

/-- The list of arguments that was emptied is printed, so the tree holds every node once. -/
theorem print_ok_emptied_call : emptiedCall.History
    ∧ (emptiedCall.print {}).toOption = some "<?php f();"
    ∧ emptiedCall.HeldOnce ∧ ∀ id, emptiedCall.Reaches id → ¬ emptiedCall.Sourceless id := by
  have history : emptiedCall.History :=
    .edited _ (.checkpoint (.parsed (by decide) (by decide)))
  have printed : (emptiedCall.print {}).toOption = some "<?php f();" := by decide +kernel
  refine ⟨history, printed, (print_ok_iff history {}).1.mp ?_⟩
  cases ended : emptiedCall.print {} with
  | ok text => exact ⟨text, rfl⟩
  | error error =>
      rw [ended] at printed
      cases printed

end Tree

end Codemod
