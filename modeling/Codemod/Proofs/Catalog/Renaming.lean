import Codemod.Proofs.Print.Respelled
import Codemod.Proofs.Run.Smooth
import Codemod.Proofs.Walk.Planned
import Mathlib.Data.List.Nodup

/-!
A pass that renames functions. The calls that change are known from the tree as it was read: each of
them has its callee to itself, so no call sees what became of another, and after the pass the tree is
spelled with the new names. Where no new name is itself one to be changed, the next pass finds nothing.
-/

namespace Codemod

namespace NameTable

variable {table : NameTable} {title text : String}

theorem mem_of_least? {entry : String × String} (found : least? table = some entry) :
    entry ∈ table := by
  induction table generalizing entry with
  | nil => cases found
  | cons first rest ih =>
      rw [least?] at found
      split at found
      · cases found
        exact List.mem_cons_self
      · next other least =>
          split at found
          · cases found
            exact List.mem_cons_of_mem _ (ih least)
          · cases found
            exact List.mem_cons_self

theorem least?_isSome (some : table ≠ []) : (least? table).isSome := by
  cases table with
  | nil => exact absurd rfl some
  | cons first rest =>
      rw [least?]
      split
      · rfl
      · split <;> rfl

theorem mem_of_find? (found : table.find? title = some text) :
    ∃ key, (key, text) ∈ table ∧ Name.same key title = true := by
  unfold find? at found
  split at found
  · next exact =>
      cases found
      obtain ⟨front, back, rfl, _⟩ := List.lookup_eq_some_iff.mp exact
      exact ⟨title, by simp, Name.same_iff.mpr rfl⟩
  · obtain ⟨⟨key, value⟩, least, rfl⟩ := Option.map_eq_some_iff.mp found
    obtain ⟨member, same⟩ := List.mem_filter.mp (mem_of_least? least)
    exact ⟨key, member, same⟩

theorem find?_isSome {key : String} (member : (key, text) ∈ table)
    (same : Name.same key title = true) : (table.find? title).isSome := by
  unfold find?
  split
  · rfl
  · rw [Option.isSome_map]
    exact least?_isSome (List.ne_nil_of_mem (List.mem_filter.mpr ⟨member, same⟩))

theorem nodup_of_clash? {names : List String} (free : clash? names = none) :
    (names.map Name.fold).Nodup := by
  induction names with
  | nil => exact List.nodup_nil
  | cons name rest ih =>
      rw [clash?] at free
      split at free
      · cases free
      · next none =>
          rw [List.map_cons, List.nodup_cons]
          refine ⟨?_, ih free⟩
          intro again
          obtain ⟨other, member, same⟩ := List.mem_map.mp again
          exact List.find?_eq_none.mp none other member (Name.same_iff.mpr same.symm)

/-- No two keys of the table name the same. -/
theorem nodup_of_clashing? (free : table.clashing? = none) :
    (table.map fun entry => Name.fold entry.1).Nodup := by
  have sorted := List.mergeSort_perm (table.map Prod.fst) fun a b => decide (a ≤ b)
  have nodup := (sorted.map Name.fold).nodup_iff.mp (nodup_of_clash? free)
  rwa [List.map_map] at nodup

theorem find?_eq_some_iff (free : table.clashing? = none) :
    table.find? title = some text ↔ ∃ key, (key, text) ∈ table ∧ Name.same key title = true := by
  constructor
  · exact mem_of_find?
  · rintro ⟨key, member, same⟩
    obtain ⟨other, found⟩ := Option.isSome_iff_exists.mp (find?_isSome member same)
    obtain ⟨rival, among, also⟩ := mem_of_find? found
    have keys : Name.fold key = Name.fold rival :=
      (Name.same_iff.mp same).trans (Name.same_iff.mp also).symm
    cases List.inj_on_of_nodup_map (nodup_of_clashing? free) member among keys
    exact found

end NameTable

theorem Params.free_of_requireNameTable {params : Params} {param : String} {table : NameTable}
    (given : params.requireNameTable param = .ok table) : table.clashing? = none := by
  rw [requireNameTable] at given
  cases read : params.requireMap param with
  | error reason =>
      rw [read] at given
      cases given
  | ok entries =>
      have accepted : params.distinct param entries = .ok table := by
        rw [read] at given
        exact given
      rw [distinct] at accepted
      split at accepted
      · cases accepted
      · next free =>
          cases accepted
          exact free

namespace RenameFunction

variable (config : RenameFunction)

-- A new name in the place of another, with its leading separator.
def respelled (title newName : String) : String :=
  if Name.isQualified title && !Name.isQualified newName then "\\" ++ newName else newName

def newName? (title : String) : Option String :=
  (config.mappings.find? title).bind fun newName =>
    if respelled title newName = title then none else some (respelled title newName)

theorem free_of_ofParams {params : Params} {config : RenameFunction}
    (accepted : ofParams params = .ok config) : config.mappings.clashing? = none := by
  rw [ofParams] at accepted
  cases given : params.requireNameTable "mappings" with
  | error reason =>
      rw [given] at accepted
      cases accepted
  | ok table =>
      rw [given] at accepted
      cases accepted
      exact Params.free_of_requireNameTable given

theorem build_eq {params : List (String × ConfigValue)} {config : RenameFunction}
    (accepted : ofParams ⟨"rename_function", params⟩ = .ok config) :
    Catalog.build [⟨"rename_function", params⟩] = .ok [config.rule] := by
  have created : RuleSpec.create ⟨"rename_function", params⟩ = .ok config.rule :=
    congrArg (Except.map RenameFunction.rule) accepted
  rw [Catalog.build, List.mapM_cons, created]
  rfl

theorem ne_of_newName? {config : RenameFunction} {title name : String}
    (renamed : config.newName? title = some name) : name ≠ title := by
  obtain ⟨text, _, spells⟩ := Option.bind_eq_some_iff.mp renamed
  obtain ⟨differs, spelled⟩ := Option.ite_none_left_eq_some.mp spells
  exact Option.some.inj spelled ▸ differs

theorem newName?_eq_some_iff (free : config.mappings.clashing? = none) {title name : String} :
    config.newName? title = some name ↔ ∃ key text, (key, text) ∈ config.mappings
      ∧ Name.same key title = true ∧ name = respelled title text ∧ name ≠ title := by
  have found : ∀ {text}, config.mappings.find? title = some text
      ↔ ∃ key, (key, text) ∈ config.mappings ∧ Name.same key title = true :=
    NameTable.find?_eq_some_iff free
  constructor
  · intro named
    obtain ⟨text, looked, renamed⟩ := Option.bind_eq_some_iff.mp named
    obtain ⟨key, member, same⟩ := found.mp looked
    obtain ⟨differs, spelled⟩ := Option.ite_none_left_eq_some.mp renamed
    cases Option.some.inj spelled
    exact ⟨key, text, member, same, rfl, differs⟩
  · rintro ⟨key, text, member, same, rfl, differs⟩
    exact Option.bind_eq_some_iff.mpr ⟨text, found.mpr ⟨key, member, same⟩, if_neg differs⟩

/-- The callee of a call and the name it gets, where the call is one to rename. -/
def renaming? (tree : Tree) (call : NodeId) : Option (NodeId × String) :=
  if tree.kind? call = some .functionCall then
    (tree.child? call .callee).bind fun callee =>
      (config.target? tree call).map fun name => (callee, name)
  else none

def calls (tree : Tree) : List NodeId :=
  (tree.descendants tree.root).filter fun call => (config.renaming? tree call).isSome

def renamings (tree : Tree) : List (NodeId × String) :=
  (tree.descendants tree.root).filterMap (config.renaming? tree)

variable {config} {tree : Tree} {call callee : NodeId} {name : String}

theorem calls_eq_nil_iff : config.calls tree = [] ↔ config.renamings tree = [] := by
  rw [calls, renamings, List.filter_eq_nil_iff, List.filterMap_eq_nil_iff]
  simp

theorem target?_eq (kind : tree.kind? call = some .functionCall)
    (held : tree.child? call .callee = some callee) :
    config.target? tree call = (tree.spelledName? callee).bind config.newName? := by
  have spelled : tree.callName? call = tree.spelledName? callee := by
    simp [Tree.callName?, kind, held]
  rw [← spelled]
  rfl

theorem renaming?_eq_some_iff : config.renaming? tree call = some (callee, name)
    ↔ tree.kind? call = some .functionCall ∧ tree.child? call .callee = some callee
      ∧ ∃ title, tree.shape? callee = some (.name title) ∧ config.newName? title = some name := by
  unfold renaming?
  constructor
  · intro renames
    split at renames
    · next kind =>
        obtain ⟨other, held, named⟩ := Option.bind_eq_some_iff.mp renames
        obtain ⟨text, targeted, same⟩ := Option.map_eq_some_iff.mp named
        cases same
        rw [target?_eq kind held] at targeted
        obtain ⟨title, spelled, renamed⟩ := Option.bind_eq_some_iff.mp targeted
        exact ⟨kind, held, title, Tree.shape?_of_spelledName? spelled, renamed⟩
    · cases renames
  · rintro ⟨kind, held, title, shaped, renamed⟩
    have targeted : config.target? tree call = some name := by
      rw [target?_eq kind held, Tree.spelledName?, shaped]
      exact renamed
    rw [if_pos kind, held, targeted]
    rfl

theorem target?_of_renaming? (kind : tree.kind? call = some .functionCall) :
    config.target? tree call = (config.renaming? tree call).map Prod.snd := by
  cases held : tree.child? call .callee with
  | none => simp [renaming?, target?, Tree.callName?, kind, held]
  | some callee =>
      rw [renaming?, if_pos kind, held]
      simp [Function.comp_def]

section

variable (context : Context) (link : Option Link) (anchor : Option Span) (log : Log)

theorem applyRule_declined (declined : config.target? tree call = none) :
    Pass.applyRule config.rule context call link anchor tree log = (.unchanged, tree.commit, log) := by
  have answers : config.rule.accepts tree.checkpoint call context = .ok false :=
    congrArg (fun found => Except.ok (Option.isSome found)) declined
  rw [Pass.applyRule, Pass.run_attempt, answers]
  rfl

theorem applyRule_renames (renames : config.renaming? tree call = some (callee, name)) :
    Pass.applyRule config.rule context call link anchor tree log
      = (.unchanged, ((tree.checkpoint.recordNode callee).setData callee (.name name)).bump.commit,
        log.applied ⟨config.rule.id, tree.positionOf anchor⟩) := by
  obtain ⟨kind, held, title, shaped, renamed⟩ := renaming?_eq_some_iff.mp renames
  have targeted : config.target? tree.checkpoint call = some name := by
    have found : config.target? tree call = some name := by
      rw [target?_of_renaming? kind, renames]
      rfl
    exact found
  have answers : config.rule.accepts tree.checkpoint call context = .ok true := by
    have accepts : config.rule.accepts tree.checkpoint call context
        = .ok (config.target? tree.checkpoint call).isSome := rfl
    rw [accepts, targeted]
    rfl
  have holds : tree.checkpoint.child? call .callee = some callee := held
  have spelled : tree.checkpoint.shape? callee = some (.name title) := shaped
  have sets := Tree.run_setName_other spelled (ne_of_newName? renamed)
  have applies : (config.rule.apply call context).run tree.checkpoint = (.ok .unchanged,
      ((tree.checkpoint.recordNode callee).setData callee (.name name)).bump) := by
    have unfolded : (config.rule.apply call context).run tree.checkpoint
        = (config.apply call).run tree.checkpoint := rfl
    rw [unfolded, apply, Step.run_bind_ok (RuleStep.run_get _)]
    dsimp only
    rw [targeted]
    dsimp only
    rw [Step.run_bind_ok (RuleStep.run_requireChild holds _),
      Step.run_bind_ok (RuleStep.run_lift sets)]
    rfl
  rw [Pass.applyRule, Pass.run_attempt, answers]
  dsimp only
  rw [applies]
  -- The revision has grown by one, so the attempt goes on record.
  have grown : ((tree.checkpoint.recordNode callee).setData callee (.name name)).bump.revision
      = tree.revision + 1 :=
    congrArg (· + 1) (tree.checkpoint.revision_record callee _)
  have differs : ((tree.checkpoint.recordNode callee).setData callee (.name name)).bump.revision
      ≠ tree.revision := by
    omega
  dsimp only [Pass.check]
  rw [if_pos (Or.inl differs)]

theorem offered_iff : (tree.kind? call).any config.rule.kinds.contains = true
    ↔ tree.kind? call = some .functionCall := by
  cases tree.kind? call <;> simp [rule]

theorem answerAt_other (other : config.renaming? tree call = none) :
    ∃ later, later.commit = tree.commit
      ∧ Pass.answerAt [config.rule] context call tree log = (.unchanged, later, log) := by
  rw [Pass.answerAt, Pass.offer]
  by_cases kind : tree.kind? call = some .functionCall
  · have declined : config.target? tree call = none := by
      rw [target?_of_renaming? kind, other]
      rfl
    rw [if_pos (offered_iff.mpr kind), applyRule_declined context _ _ log declined]
    exact ⟨tree.commit, rfl, rfl⟩
  · rw [if_neg (offered_iff.not.mpr kind)]
    exact ⟨tree, rfl, rfl⟩

theorem answerAt_renames (renames : config.renaming? tree call = some (callee, name)) :
    Pass.answerAt [config.rule] context call tree log
      = (.unchanged, ((tree.checkpoint.recordNode callee).setData callee (.name name)).bump.commit,
        log.applied ⟨config.rule.id, tree.position? call⟩) := by
  have kind := (renaming?_eq_some_iff.mp renames).1
  rw [Pass.answerAt, Pass.offer, if_pos (offered_iff.mpr kind),
    applyRule_renames context _ _ log renames]
  rfl

end

structure Noted (config : RenameFunction) (tree : Tree) (log : Log) (done : List NodeId)
    (after : Tree) (entries : Log) : Prop where
  respelled : tree.Respelled (done.filterMap (config.renaming? tree)) after
  revision : after.revision = tree.revision + (done.filterMap (config.renaming? tree)).length
  applications : entries.applications = log.applications
    ++ (done.filter fun call => (config.renaming? tree call).isSome).map
      fun call => ⟨config.rule.id, tree.position? call⟩
  diagnostics : entries.diagnostics = log.diagnostics

section

variable {done : List NodeId} {after : Tree} {log entries : Log}

/-- The callee of a call that was not visited has its old name. -/
theorem callee_unnamed (tidy : tree.Tidy tree.root) (reached : ∀ id ∈ done, tree.Reaches id)
    (here : tree.Reaches call) (fresh : call ∉ done) (held : tree.child? call .callee = some callee) :
    (done.filterMap (config.renaming? tree)).lookup callee = none := by
  rw [List.lookup_eq_none_iff]
  rintro ⟨other, name⟩ member
  obtain ⟨holder, among, renames⟩ := List.mem_filterMap.mp member
  obtain ⟨_, holds, _⟩ := renaming?_eq_some_iff.mp renames
  rw [bne_iff_ne]
  rintro rfl
  have same := (tidy.holder_eq here (reached holder among) (Tree.child_of_child? held)
    (Tree.child_of_child? holds) rfl).1
  exact fresh (same ▸ among)

theorem Noted.renaming?_eq (noted : config.Noted tree log done after entries)
    (tidy : tree.Tidy tree.root) (reached : ∀ id ∈ done, tree.Reaches id)
    (here : tree.Reaches call) (fresh : call ∉ done) :
    config.renaming? after call = config.renaming? tree call := by
  have kind := noted.respelled.kind? call
  have child : after.child? call .callee = tree.child? call .callee := by
    rw [Tree.child?, Tree.childrenIn, noted.respelled.children]
    rfl
  rw [renaming?, renaming?, kind, child]
  split
  · next function =>
      cases held : tree.child? call .callee with
      | none => rfl
      | some callee =>
          have shape := noted.respelled.shape? callee
          rw [callee_unnamed tidy reached here fresh held] at shape
          rw [target?_eq (kind.trans function) (child.trans held), target?_eq function held,
            Tree.spelledName?, Tree.spelledName?, shape]
  · rfl

theorem Noted.visit (noted : config.Noted tree log done after entries) (context : Context)
    (tidy : tree.Tidy tree.root) (reached : ∀ id ∈ done, tree.Reaches id)
    (here : tree.Reaches call) (fresh : call ∉ done) :
    ∃ later written, Pass.answerAt [config.rule] context call after entries
        = (.unchanged, later, written)
      ∧ after.Matches later ∧ config.Noted tree log (done ++ [call]) later written := by
  have same := noted.renaming?_eq tidy reached here fresh
  cases renames : config.renaming? tree call with
  | none =>
      obtain ⟨later, still, answers⟩ := answerAt_other context entries (same.trans renames)
      have respelled := noted.respelled.of_commit still
      refine ⟨later, entries, answers, noted.respelled.same.between respelled.same, ?_, ?_, ?_,
        noted.diagnostics⟩
      · simpa [renames] using respelled
      · simpa [renames] using (Tree.revision_of_commit still).trans noted.revision
      · simpa [renames] using noted.applications
  | some pair =>
      obtain ⟨callee, name⟩ := pair
      obtain ⟨_, held, title, shaped, _⟩ := renaming?_eq_some_iff.mp renames
      have opened : tree.Respelled _ after.checkpoint := noted.respelled.of_commit rfl
      have respelled : tree.Respelled (done.filterMap (config.renaming? tree) ++ [(callee, name)])
          ((after.checkpoint.recordNode callee).setData callee (.name name)).bump.commit :=
        (opened.setName shaped (callee_unnamed tidy reached here fresh held)).of_commit rfl
      refine ⟨_, _, answerAt_renames context entries (same.trans renames),
        noted.respelled.same.between respelled.same, ?_, ?_, ?_, noted.diagnostics⟩
      · simpa [renames] using respelled
      · have grown : ((after.checkpoint.recordNode callee).setData callee
            (.name name)).bump.commit.revision = after.revision + 1 :=
          congrArg (· + 1) (after.checkpoint.revision_record callee _)
        rw [grown, noted.revision]
        simp [renames, Nat.add_assoc]
      · rw [Log.applied, noted.applications, noted.respelled.position?]
        simp [renames]

end

section

variable {steps : Nat} (context : Context) (log : Log)

theorem follows_renaming (planned : Walk.Planned .idle tree) :
    Walk.Follows .idle tree (Pass.visitor [config.rule] context) (config.Noted tree log) where
  visit := by
    intro done id later walk order noted
    have fresh := Walk.not_mem_done planned order
    rw [Plan.itinerary_idle planned.tidy] at order
    have reached : ∀ other ∈ tree.descendants tree.root, tree.Reaches other :=
      fun other => Tree.below_of_within
    rw [order] at reached
    obtain ⟨after, entries, answers, same, more⟩ := noted.visit context planned.tidy
      (fun other member => reached other (List.mem_append_left _ member))
      (reached id (by simp)) fresh
    refine ⟨after, entries, ?_, same, more⟩
    rw [Pass.run_visitor, answers]
    rfl
  edit changed := absurd rfl changed

variable (config) in
/-- A pass renames the calls of the tree it starts from, and nothing is refused. -/
theorem pass_renames (planned : Walk.Planned .idle tree) (enough : 2 * tree.size ≤ steps) :
    ∃ walk, Walk.run (Pass.visitor [config.rule] context) steps tree log tree.root = (.ok (), walk)
      ∧ config.Noted tree log (tree.descendants tree.root) walk.tree walk.state
      ∧ Pass.walkDiagnostics walk = [] := by
  have start : config.Noted tree log [] tree log :=
    ⟨tree.respelled_nil, rfl, by simp, rfl⟩
  obtain ⟨walk, ran, shown⟩ :=
    Walk.run_shown planned (follows_renaming context log planned) enough start
  refine ⟨walk, ran, Plan.itinerary_idle planned.tidy ▸ shown.noted, ?_⟩
  have quiet : walk.errors = [] := by
    rw [shown.errors, List.filterMap_eq_nil_iff]
    intro id _
    rw [Plan.refusal?_unchanged rfl]
    rfl
  rw [Pass.walkDiagnostics, quiet, shown.limited]
  rfl

end

-- No new name is one that is changed again.
def Stable (config : RenameFunction) : Prop :=
  ∀ {title name}, config.newName? title = some name → config.newName? name = none

/-- What was renamed is left alone from then on. -/
theorem Stable.renamings_eq_nil (stable : config.Stable) {after : Tree}
    (respelled : tree.Respelled (config.renamings tree) after) : config.renamings after = [] := by
  rw [renamings, List.filterMap_eq_nil_iff, respelled.root, respelled.same.descendants]
  intro call member
  rw [Option.eq_none_iff_forall_ne_some]
  rintro ⟨callee, name⟩ renames
  obtain ⟨kind, held, title, shaped, renamed⟩ := renaming?_eq_some_iff.mp renames
  rw [respelled.shape?] at shaped
  cases spelling : (config.renamings tree).lookup callee with
  | some former =>
      rw [spelling] at shaped
      cases shaped
      obtain ⟨front, back, split, _⟩ := List.lookup_eq_some_iff.mp spelling
      have among : (callee, title) ∈ config.renamings tree := by simp [split]
      obtain ⟨holder, _, was⟩ := List.mem_filterMap.mp among
      obtain ⟨_, _, _, _, made⟩ := renaming?_eq_some_iff.mp was
      rw [stable made] at renamed
      cases renamed
  | none =>
      rw [spelling] at shaped
      have child : tree.child? call .callee = some callee := by
        rw [← held, Tree.child?, Tree.child?, Tree.childrenIn, Tree.childrenIn, respelled.children]
      have was : config.renaming? tree call = some (callee, name) :=
        renaming?_eq_some_iff.mpr
          ⟨(respelled.kind? call).symm.trans kind, child, title, shaped, renamed⟩
      have among : (callee, name) ∈ config.renamings tree := List.mem_filterMap.mpr ⟨call, member, was⟩
      exact absurd (List.lookup_eq_none_iff.mp spelling _ among) (by simp)

end RenameFunction

end Codemod
