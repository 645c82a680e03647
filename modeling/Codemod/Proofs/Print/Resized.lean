import Codemod.Proofs.Print.Preserved
import Codemod.Proofs.Text.Gaps

/-!
Lists that lost or gained items. The printer keeps what stood in front of the first item and behind
the last one, and between two items that were neighbours; between others it puts one separator, which
it takes from the gaps of the list.
-/

namespace Codemod

namespace Text

-- Blanks and commas only, so that no comment is repeated.
def plain (gap : String) : Bool :=
  gap.toList.all fun c => isBlank c || c == ','

def spacing (source : String) (places : List Span) (separator : String) (before after : Nat) :
    String :=
  if after = before + 1 then ((gaps source places)[before]?).getD separator else separator

end Text

namespace Tree

variable {tree : Tree} {options : PrintOptions} {places : List Span}

def defaultSeparator (itemBase : String) : Kind → String
  | .program | .block => "\n" ++ itemBase
  | _ => ", "

theorem separator_eq (source : String) (kind : Kind) (itemBase : String) (places : List Span) :
    separator source kind itemBase places
      = ((Text.gaps source places).find? Text.plain).getD (defaultSeparator itemBase kind) := by
  induction places with
  | nil => cases kind <;> rfl
  | cons first rest ih =>
      cases rest with
      | nil => cases kind <;> rfl
      | cons second rest =>
          let gap := Text.slice source first.stop second.start
          have unfolded : separator source kind itemBase (first :: second :: rest)
              = if Text.plain gap then gap else separator source kind itemBase (second :: rest) := rfl
          rw [unfolded, ih, Text.gaps, List.find?_cons]
          cases Text.plain gap <;> rfl

/-- In a comma list the separator is a comma as well. -/
theorem separator_comma {source : String} {kind : Kind} (list : kind ≠ .program ∧ kind ≠ .block)
    (itemBase : String) (commas : ∀ gap ∈ Text.gaps source places, Text.ink gap = [',']) :
    Text.ink (separator source kind itemBase places) = [','] := by
  rw [separator_eq]
  cases found : (Text.gaps source places).find? Text.plain with
  | some gap => exact commas gap (List.mem_of_find?_eq_some found)
  | none => cases kind <;> simp_all [defaultSeparator, Text.ink, Text.isBlank]

def ownText (tree : Tree) (id : NodeId) : String :=
  (tree.text? id).getD ""

theorem ownText_of_span? {id : NodeId} {place : Span} (spanned : tree.span? id = some place) :
    tree.ownText id = Text.slice tree.source place.start place.stop := by
  rw [ownText, text?, spanned]
  rfl

-- The items are as they were read, at the places that have their numbers.
def Numbered (tree : Tree) (places : List Span) (items : List (NodeId × Nat)) : Prop :=
  ∀ item ∈ items, ∃ place, places[item.2]? = some place ∧ tree.InPlace item.1 place

theorem findIdx?_of_nodup (nodup : places.Nodup) {number : Nat} {place : Span}
    (stands : places[number]? = some place) : places.findIdx? (· == place) = some number := by
  obtain ⟨inside, rfl⟩ := List.getElem?_eq_some_iff.mp stands
  rw [List.findIdx?_eq_some_iff_getElem]
  refine ⟨inside, by simp, fun other earlier => ?_⟩
  rw [beq_iff_eq]
  exact List.pairwise_iff_getElem.mp nodup other number _ inside earlier

section

variable {item : NodeId × Nat} {place : Span} (nodup : places.Nodup)
variable (here : places[item.2]? = some place) (inPlace : tree.InPlace item.1 place)

include nodup here inPlace

theorem number_of_inPlace :
    ((tree.span? item.1).bind fun span => places.findIdx? (· == span)) = some item.2 := by
  rw [inPlace.1, Option.bind_some, findIdx?_of_nodup nodup here]

variable {separator itemBase text : String} {depth : Nat} {rest : List NodeId}
variable (printed : tree.printItems (tree.printTo options (depth + 1)) places itemBase separator
  (some (some item.2)) rest = .ok text)

include printed

theorem printItems_first :
    tree.printItems (tree.printTo options (depth + 1)) places itemBase separator none
      (item.1 :: rest) = .ok (tree.ownText item.1 ++ text) := by
  unfold printItems
  simp only [number_of_inPlace nodup here inPlace, printTo_inPlace inPlace, printed,
    ← ownText_of_span? inPlace.1]
  exact congrArg Except.ok (by simp)

theorem printItems_next {previous : Nat} (stands : (places[previous]?).isSome) :
    tree.printItems (tree.printTo options (depth + 1)) places itemBase separator
      (some (some previous)) (item.1 :: rest)
        = .ok (Text.spacing tree.source places separator previous item.2 ++ tree.ownText item.1
          ++ text) := by
  obtain ⟨before, found⟩ := Option.isSome_iff_exists.mp stands
  have between : Text.spacing tree.source places separator previous item.2
      = if item.2 = previous + 1 then Text.slice tree.source before.stop place.start
        else separator := by
    rw [Text.spacing]
    split
    · next follows =>
        rw [follows] at here
        rw [Text.gaps_getElem? tree.source places found here]
        rfl
    · rfl
  unfold printItems
  simp only [number_of_inPlace nodup here inPlace, printTo_inPlace inPlace, printed, found, here,
    ← ownText_of_span? inPlace.1]
  rw [between]
  rfl

end

abbrev Spaced (tree : Tree) (places : List Span) (separator : String) (before after : NodeId × Nat)
    (gap : String) : Prop :=
  gap = Text.spacing tree.source places separator before.2 after.2

/-- The items behind one that was printed. -/
theorem printItems_woven (nodup : places.Nodup) (separator itemBase : String) (depth : Nat)
    {items : List (NodeId × Nat)} (numbered : tree.Numbered places items) {previous : NodeId × Nat}
    (stands : (places[previous.2]?).isSome) :
    ∃ text, tree.printItems (tree.printTo options (depth + 1)) places itemBase separator
        (some (some previous.2)) (items.map Prod.fst) = .ok text
      ∧ Text.Woven (fun item => tree.ownText item.1) (tree.Spaced places separator)
        (previous :: items) (tree.ownText previous.1 ++ text) := by
  induction items generalizing previous with
  | nil => exact ⟨"", rfl, by simpa using Text.Woven.single previous⟩
  | cons item rest ih =>
      obtain ⟨⟨place, here, inPlace⟩, later⟩ := List.forall_mem_cons.mp numbered
      have placed : (places[item.2]?).isSome := by simp [here]
      obtain ⟨text, printed, woven⟩ := ih later placed
      refine ⟨_, printItems_next nodup here inPlace printed stands, ?_⟩
      simpa only [String.append_assoc] using Text.Woven.cons rfl woven

section

variable {node : Node} {span first : Span} {rest : List Span}

theorem printResized_eq {print : NodeId → String → Except PrintError String} {text : String}
    (printed : tree.printItems print (first :: rest) (Text.lineIndent tree.source first.start)
      (separator tree.source node.shape.kind (Text.lineIndent tree.source first.start)
        (first :: rest)) none (node.shape.children.map Prod.snd) = .ok text) :
    tree.printResized print node span (first :: rest) first
      = .ok ((if node.shape.children = [] then
            Text.trimEnd (Text.front tree.source span (first :: rest))
          else Text.front tree.source span (first :: rest))
        ++ text ++ Text.back tree.source span (first :: rest)) := by
  have last : ((first :: rest).getLast?.getD first).stop
      = (first :: rest).getLast?.elim span.stop Span.stop := by
    rw [List.getLast?_cons]
    rfl
  have bare : ((node.shape.children.map Prod.snd).isEmpty = true) = (node.shape.children = []) := by
    simp
  unfold printResized
  simp only [printed, last, bare]
  rfl

/-- Where no item is left, the blanks in front of the first one are gone as well. -/
theorem printResized_empty (print : NodeId → String → Except PrintError String)
    (gone : node.shape.children = []) :
    tree.printResized print node span (first :: rest) first
      = .ok (Text.trimEnd (Text.front tree.source span (first :: rest))
        ++ Text.back tree.source span (first :: rest)) := by
  rw [printResized_eq (by rw [gone]; rfl), if_pos gone]
  simp

/-- Items that are as they were read are printed in order between the ends of the list. -/
theorem printResized_woven (nodup : (first :: rest).Nodup) (depth : Nat)
    {items : List (NodeId × Nat)} (numbered : tree.Numbered (first :: rest) items)
    (remain : items ≠ []) (holds : node.shape.children.map Prod.snd = items.map Prod.fst) :
    ∃ inner, tree.printResized (tree.printTo options (depth + 1)) node span (first :: rest) first
        = .ok (Text.front tree.source span (first :: rest) ++ inner
          ++ Text.back tree.source span (first :: rest))
      ∧ Text.Woven (fun item => tree.ownText item.1)
        (tree.Spaced (first :: rest) (separator tree.source node.shape.kind
          (Text.lineIndent tree.source first.start) (first :: rest))) items inner := by
  cases items with
  | nil => exact absurd rfl remain
  | cons item others =>
      obtain ⟨⟨place, here, inPlace⟩, later⟩ := List.forall_mem_cons.mp numbered
      have placed : ((first :: rest)[item.2]?).isSome := by simp [here]
      obtain ⟨text, printed, woven⟩ := printItems_woven nodup
        (separator tree.source node.shape.kind (Text.lineIndent tree.source first.start)
          (first :: rest))
        (Text.lineIndent tree.source first.start) depth later placed
      have all := printItems_first nodup here inPlace printed
      rw [← List.map_cons, ← holds] at all
      have some : node.shape.children ≠ [] := by
        intro none
        simp [none] at holds
      exact ⟨_, by rw [printResized_eq all, if_neg some], woven⟩

/-- A list of another length than was read is printed as a resized list. -/
theorem printTo_resized (options : PrintOptions) {id : NodeId} (found : tree.node? id = some node)
    (spanned : node.span = some span) (untouched : node.touched = false)
    (list : isListKind node.shape.kind) (layout : node.layout.map Prod.snd = first :: rest)
    (resized : node.shape.children.length ≠ node.layout.length) (depth : Nat) (base : String) :
    tree.printTo options (depth + 1) id base
      = tree.printResized (tree.printTo options depth) node span (first :: rest) first := by
  have changed : tree.isPristine id = false := by
    rw [isPristine]
    cases tree.size with
    | zero => rfl
    | succ size => simp [pristineTo, found, resized]
  have moved : (node.shape.children.map Prod.fst == node.layout.map Prod.fst) = false := by
    rw [beq_eq_false_iff_ne]
    intro same
    exact resized (by simpa using congrArg List.length same)
  simp only [printTo, printNode, found, spanned, changed, moved, untouched, list, layout]
  simp

end

end Tree

end Codemod
