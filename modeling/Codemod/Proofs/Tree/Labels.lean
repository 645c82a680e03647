import Codemod.Proofs.Text.Gaps
import Codemod.Proofs.Tree.Origins
import Codemod.Tree.Parse
import Mathlib.Data.List.DropRight

/-!
What the reader makes of the text before the value of an argument. A label and an ellipsis are not taken
from the program but read off that text, from its two ends. Main statement: an argument is unpacked
exactly if it is in the program, and the label is right unless a comment stands where it hides the end of
the text (`ofProgram_labels`).
-/

namespace Codemod

namespace Text

structure Tight (text : String) : Prop where
  first : ∀ c, text.toList.head? = some c → isBlank c = false
  last : ∀ c, text.toList.getLast? = some c → isBlank c = false

theorem dropTrailing_eq_rdropWhile (drop : Char → Bool) (cs : List Char) :
    dropTrailing drop cs = cs.rdropWhile drop :=
  rfl

/-- Behind a front that keeps its end, only what follows loses its own. -/
theorem dropTrailing_append_of_kept {drop : Char → Bool} {front : List Char}
    (kept : dropTrailing drop front = front) (back : List Char) :
    dropTrailing drop (front ++ back) = front ++ dropTrailing drop back := by
  rw [dropTrailing_eq_rdropWhile] at kept ⊢
  rw [dropTrailing_eq_rdropWhile]
  induction back using List.reverseRecOn with
  | nil => simpa using kept
  | append_singleton back c ih =>
      rw [← List.append_assoc, List.rdropWhile_concat, List.rdropWhile_concat]
      split
      · exact ih
      · rw [List.append_assoc]

/-- A text is what trimming leaves of it, with blanks around that. -/
theorem exists_trim (text : String) :
    ∃ lead trail, allBlank lead ∧ allBlank trail ∧ text = lead ++ trim text ++ trail := by
  refine ⟨String.ofList (text.toList.takeWhile isBlank),
    String.ofList ((text.toList.dropWhile isBlank).rtakeWhile isBlank), ?_, ?_, ?_⟩
  · simp only [allBlank, String.toList_ofList]
    exact List.all_takeWhile
  · simp only [allBlank, String.toList_ofList, List.all_eq_true]
    exact fun c => List.mem_rtakeWhile_imp
  · apply String.toList_injective
    rw [trim, dropTrailing_eq_rdropWhile]
    simp only [String.toList_append, String.toList_ofList, List.append_assoc,
      List.rdropWhile_append_rtakeWhile, List.takeWhile_append_dropWhile]

@[simp] theorem ink_trim (text : String) : ink (trim text) = ink text := by
  obtain ⟨lead, trail, leads, trails, parts⟩ := exists_trim text
  conv_rhs => rw [parts]
  rw [ink_append, ink_append, ink_eq_nil_iff.mpr leads, ink_eq_nil_iff.mpr trails,
    List.nil_append, List.append_nil]

theorem trimEnd_empty : trimEnd "" = "" :=
  rfl

theorem trimEnd_blank {text : String} (blank : allBlank text) : trimEnd text = "" := by
  have bare := trimEnd_append_blank "" (ink_eq_nil_iff.mpr blank)
  rwa [String.empty_append, trimEnd_empty] at bare

theorem ink_colon : ink ":" = [':'] := by
  decide

theorem tight_trim (text : String) : Tight (trim text) := by
  rw [trim, dropTrailing_eq_rdropWhile]
  constructor
  · intro c first
    rw [String.toList_ofList] at first
    obtain ⟨rest, whole⟩ := List.rdropWhile_prefix isBlank (text.toList.dropWhile isBlank)
    have leads : (text.toList.dropWhile isBlank).head? = some c := by
      rw [← whole, List.head?_append, first]
      rfl
    simpa [leads] using List.head?_dropWhile_not isBlank text.toList
  · intro c last
    rw [String.toList_ofList] at last
    have left := List.ne_nil_of_mem (List.mem_of_getLast? last)
    cases (List.getLast?_eq_some_getLast left).symm.trans last
    exact Bool.eq_false_iff.mpr (List.rdropWhile_last_not isBlank _ left)

namespace Tight

variable {text : String}

theorem head?_ink (tight : Tight text) : (ink text).head? = text.toList.head? := by
  rw [ink]
  cases chars : text.toList with
  | nil => rfl
  | cons c rest => simp [tight.first c (by rw [chars]; rfl)]

theorem getLast?_ink (tight : Tight text) : (ink text).getLast? = text.toList.getLast? := by
  rw [ink]
  rcases text.toList.eq_nil_or_concat with none | ⟨front, c, chars⟩
  · rw [none]
    rfl
  · rw [List.concat_eq_append] at chars
    simp [chars, tight.last c (by rw [chars, List.getLast?_concat])]

/-- Behind a text that no blank ends, only what follows is trimmed. -/
theorem trim_append (tight : Tight text) (filled : text ≠ "") (more : String) :
    trim (text ++ more) = text ++ trimEnd more := by
  have some : text.toList ≠ [] := by simpa using filled
  have starts : (text ++ more).toList.dropWhile isBlank = text.toList ++ more.toList := by
    rw [String.toList_append]
    obtain ⟨c, rest, chars⟩ := List.exists_cons_of_ne_nil some
    rw [chars, List.cons_append, List.dropWhile_cons_of_neg]
    simp [tight.first c (by rw [chars]; rfl)]
  have ends : dropTrailing isBlank text.toList = text.toList := by
    refine List.rdropWhile_eq_self_iff.mpr fun filled => ?_
    exact Bool.eq_false_iff.mp (tight.last _ (List.getLast?_eq_some_getLast filled))
  apply String.toList_injective
  rw [trim, starts, dropTrailing_append_of_kept ends, trimEnd]
  simp

theorem trim_eq (tight : Tight text) : trim text = text := by
  by_cases filled : text = ""
  · rw [filled]
    rfl
  · have whole := tight.trim_append filled ""
    rwa [trimEnd_empty, String.append_empty] at whole

end Tight

end Text

open Text Php

namespace Tree.OfProgram

variable {front : String}

/-- A label is what stands before a colon that ends the text. -/
theorem label_eq_some_iff {label : String} :
    (argumentMarks front).1 = some label ↔ ∃ body, trim front = body ++ ":" ∧ trim body = label := by
  rw [argumentMarks]
  simp only [Option.ite_none_right_eq_some, beq_iff_eq, Option.some.injEq]
  constructor
  · rintro ⟨last, same⟩
    refine ⟨_, ?_, same⟩
    apply String.toList_injective
    rw [String.toList_append, String.toList_ofList]
    exact (List.dropLast_append_getLast? _ last).symm
  · rintro ⟨body, whole, same⟩
    have chars : (trim front).toList = body.toList ++ [':'] := by
      rw [whole, String.toList_append]
      rfl
    rw [chars, List.dropLast_concat, String.ofList_toList]
    exact ⟨List.getLast?_concat, same⟩

theorem label_eq_none_iff : (argumentMarks front).1 = none ↔ (ink front).getLast? ≠ some ':' := by
  rw [← ink_trim, (tight_trim front).getLast?_ink, argumentMarks]
  simp

theorem unpack_iff : (argumentMarks front).2 = true ↔ ['.', '.', '.'] <+: (trim front).toList :=
  List.isPrefixOf_iff_prefix

/-- Of a name and a colon with something behind each of them, the name is the label exactly if that is
nothing but blanks and the name has none at its own ends. -/
theorem label_of_named {title before after : String} (filled : title ≠ "") :
    (argumentMarks (title ++ before ++ ":" ++ after)).1 = some title
      ↔ trim title = title ∧ allBlank before ∧ allBlank after := by
  rw [label_eq_some_iff]
  constructor
  · rintro ⟨body, whole, same⟩
    have tight : Tight title := same ▸ tight_trim body
    -- Without blanks the front is the label and a colon, so nothing else in it has ink.
    have inks : ink title ++ (ink before ++ ':' :: ink after) = ink title ++ [':'] := by
      have front := congrArg ink whole
      rw [ink_trim, ink_append body, ← ink_trim body, same] at front
      simpa only [ink_append, ink_colon, List.append_assoc, List.singleton_append] using front
    have rest := List.append_cancel_left inks
    have lengths := congrArg List.length rest
    simp only [List.length_append, List.length_cons, List.length_nil] at lengths
    refine ⟨tight.trim_eq, ?_, ?_⟩
    · exact ink_eq_nil_iff.mp (List.length_eq_zero_iff.mp (by omega))
    · exact ink_eq_nil_iff.mp (List.length_eq_zero_iff.mp (by omega))
  · rintro ⟨same, between, behind⟩
    have tight : Tight title := same ▸ tight_trim title
    have closed : Tight (title ++ before ++ ":") := by
      refine ⟨fun c starts => tight.first c ?_, fun c ends => ?_⟩
      · obtain ⟨first, rest, chars⟩ :=
          List.exists_cons_of_ne_nil (l := title.toList) (by simpa using filled)
        simpa [chars] using starts
      · obtain rfl : ':' = c := by simpa using ends
        decide
    refine ⟨title ++ before, ?_, ?_⟩
    · rw [closed.trim_append (by simp) after, trimEnd_blank behind, String.append_empty]
    · rw [tight.trim_append filled, trimEnd_blank between, String.append_empty]

/-- A text that starts otherwise has no ellipsis in front. -/
theorem unpack_eq_false (other : (ink front).head? ≠ some '.') : (argumentMarks front).2 = false := by
  refine Bool.eq_false_iff.mpr fun unpacks => other ?_
  obtain ⟨rest, whole⟩ := unpack_iff.mp unpacks
  rw [← ink_trim, (tight_trim front).head?_ink, ← whole]
  rfl

theorem unpack_of_ellipsis (trivia : String) : (argumentMarks ("..." ++ trivia)).2 = true := by
  have tight : Tight "..." := by
    constructor
    · intro c first
      obtain rfl : '.' = c := by simpa using first
      decide
    · intro c last
      obtain rfl : '.' = c := by simpa using last
      decide
  refine unpack_iff.mpr ⟨(trimEnd trivia).toList, ?_⟩
  rw [tight.trim_append (by decide), String.toList_append]
  rfl

end Tree.OfProgram

inductive Trivia : List Char → Prop
  | nil : Trivia []
  | blank {c : Char} {rest : List Char} (blank : isBlank c) (more : Trivia rest) : Trivia (c :: rest)
  /-- A comment that the end of the line ends. -/
  | line {opening body rest : List Char} (opens : opening = ['#'] ∨ opening = ['/', '/'])
      (inside : lineCommentLength body = body.length) (more : Trivia rest) :
      Trivia (opening ++ body ++ rest)
  | block {body rest : List Char} (closes : blockCommentLength? body = some body.length)
      (more : Trivia rest) : Trivia ('/' :: '*' :: body ++ rest)

/-- An argument as it is written before its value: a name and a colon with what stands behind each of
them, an ellipsis with what stands behind it, or nothing. -/
inductive Lead where
  | named (title before after : String)
  | unpacked (trivia : String)
  | plain

namespace Lead

def text : Lead → String
  | .named title before after => title ++ before ++ ":" ++ after
  | .unpacked trivia => "..." ++ trivia
  | .plain => ""

def label? : Lead → Option String
  | .named title _ _ => some title
  | .unpacked _ | .plain => none

def unpacks : Lead → Bool
  | .unpacked _ => true
  | .named .. | .plain => false

/-- The text shows what the argument is: nothing but blanks around the colon, none at the ends of the
name, and no colon at the end of a comment behind an ellipsis. -/
def Shows : Lead → Prop
  | .named title before after => trim title = title ∧ allBlank before ∧ allBlank after
  | .unpacked trivia => (ink trivia).getLast? ≠ some ':'
  | .plain => True

instance : ∀ lead : Lead, Decidable lead.Shows
  | .named .. => inferInstanceAs (Decidable (_ ∧ _ ∧ _))
  | .unpacked _ => inferInstanceAs (Decidable (_ ≠ _))
  | .plain => inferInstanceAs (Decidable True)

end Lead

inductive Leads (source : String) : Argument → Lead → Prop
  | named {span name : Span} {value : Expr} {title before after : String}
      (titled : title = slice source name.start name.stop)
      (identifier : title ≠ "" ∧ title.toList.all isNamePart)
      (between : Trivia before.toList) (behind : Trivia after.toList)
      (text : (Argument.named span name value).front source = title ++ before ++ ":" ++ after) :
      Leads source (.named span name value) (.named title before after)
  | unpacked {span : Span} {value : Expr} {trivia : String} (behind : Trivia trivia.toList)
      (text : (Argument.positional span true value).front source = "..." ++ trivia) :
      Leads source (.positional span true value) (.unpacked trivia)
  | plain {span : Span} {value : Expr} (same : span = value.span) :
      Leads source (.positional span false value) .plain

/-- What is no blank starts with the sign of a comment. -/
theorem Trivia.starts {cs : List Char} (trivia : Trivia cs) :
    ∀ c, (cs.filter fun c => !isBlank c).head? = some c → c ≠ '.' := by
  induction trivia with
  | nil => nofun
  | blank blank _ ih => simpa [blank] using ih
  | line opens =>
      obtain rfl | rfl := opens
      · simp [show isBlank '#' = false from rfl]
      · simp [show isBlank '/' = false from rfl]
  | block => simp [show isBlank '/' = false from rfl]

namespace Tree

open OfProgram

variable {source : String} {given : Argument} {lead : Lead}

theorem front_eq (leads : Leads source given lead) : given.front source = lead.text := by
  cases leads with
  | named _ _ _ _ text => exact text
  | unpacked _ text => exact text
  | plain same => rw [Argument.front, Argument.span, same, Argument.value, slice_self, Lead.text]

theorem unpack_eq (leads : Leads source given lead) :
    (argumentMarks lead.text).2 = lead.unpacks := by
  cases leads with
  | @named _ _ _ title before after _ identifier between =>
      refine unpack_eq_false fun dotted => ?_
      rw [Lead.text, ink_append, ink_append, ink_append, ink_colon, List.append_assoc,
        List.append_assoc, List.head?_append, List.head?_append] at dotted
      rcases Option.or_eq_some_iff.mp dotted with early | ⟨_, later⟩
      · have member := List.mem_of_mem_filter (List.mem_of_mem_head? early)
        exact absurd (List.all_eq_true.mp identifier.2 '.' member) (by decide)
      · rcases Option.or_eq_some_iff.mp later with comment | ⟨_, colon⟩
        · exact between.starts '.' comment rfl
        · cases colon
  | unpacked => exact unpack_of_ellipsis _
  | plain => rfl

/-- An argument of the tree is unpacked exactly if it is in the program. It has a label exactly if the
last character before its value that is no blank is a colon, and it has the one that the program gives it
exactly if no comment stands around the colon, and none that ends in a colon behind an ellipsis. -/
theorem ofProgram_labels (source : String) (program : List Statement) (id : NodeId)
    (made : originAt (Php.origins source program) id = some (.argument given))
    (leads : Leads source given lead) :
    ∃ label unpack value, (ofProgram source program).shape? id = some (.argument label unpack value)
      ∧ unpack = lead.unpacks
      ∧ (label = none ↔ (ink lead.text).getLast? ≠ some ':')
      ∧ (label = lead.label? ↔ lead.Shows) := by
  obtain ⟨_, found, _, ⟨value, rfl⟩, _⟩ := (ofProgram_listed source program).made id _ made
  rw [front_eq leads] at found
  refine ⟨_, _, value, found, unpack_eq leads, label_eq_none_iff, ?_⟩
  cases leads with
  | named _ identifier => exact label_of_named identifier.1
  | unpacked =>
      rw [Lead.label?, label_eq_none_iff, Lead.Shows, Lead.text, ink_append, List.getLast?_append]
      cases (ink _).getLast? with
      | none => exact iff_of_true nofun nofun
      | some c => rfl
  | plain => exact iff_of_true rfl trivial

def mixedSource : String :=
  "f($a, b : $c, ... $d);"

-- A call with an argument of each kind.
def mixedProgram : List Statement :=
  [.expression ⟨0, 22⟩ (.functionCall ⟨0, 21⟩ (.identifier ⟨0, 1⟩) (.mk ⟨1, 21⟩
    [.positional ⟨2, 4⟩ false (.variable ⟨2, 4⟩), .named ⟨6, 12⟩ ⟨6, 7⟩ (.variable ⟨10, 12⟩),
      .positional ⟨14, 20⟩ true (.variable ⟨18, 20⟩)]))]

theorem ofProgram_labels_mixed : ∃ first second third,
    (ofProgram mixedSource mixedProgram).shape? ⟨3⟩ = some (.argument none false first)
      ∧ (ofProgram mixedSource mixedProgram).shape? ⟨5⟩ = some (.argument (some "b") false second)
      ∧ (ofProgram mixedSource mixedProgram).shape? ⟨7⟩ = some (.argument none true third) := by
  have whole : mixedSource.utf8ByteSize = 22 := by decide +kernel
  have callee : isNameText (slice mixedSource 0 1) = true := by decide +kernel
  have listed : origins mixedSource mixedProgram = [.other ⟨0, 1⟩, .other ⟨2, 4⟩,
      .argument (.positional ⟨2, 4⟩ false (.variable ⟨2, 4⟩)), .other ⟨10, 12⟩,
      .argument (.named ⟨6, 12⟩ ⟨6, 7⟩ (.variable ⟨10, 12⟩)), .other ⟨18, 20⟩,
      .argument (.positional ⟨14, 20⟩ true (.variable ⟨18, 20⟩)), .other ⟨1, 21⟩, .other ⟨0, 21⟩,
      .other ⟨0, 22⟩, .other ⟨0, 22⟩] := by
    simp [origins, mixedProgram, statementOrigins, Statement.origins, Expr.origins, named,
      ArgumentList.origins, argumentOrigins, Argument.origins, Expr.span, callee, whole]
  have blank : Trivia " ".toList := .blank (by decide) .nil
  have plain : Leads mixedSource (.positional ⟨2, 4⟩ false (.variable ⟨2, 4⟩)) .plain := .plain rfl
  have named : Leads mixedSource (.named ⟨6, 12⟩ ⟨6, 7⟩ (.variable ⟨10, 12⟩)) (.named "b" " " " ") :=
    .named (by decide +kernel) (by decide +kernel) blank blank (by decide +kernel)
  have unpacked : Leads mixedSource (.positional ⟨14, 20⟩ true (.variable ⟨18, 20⟩)) (.unpacked " ") :=
    .unpacked blank (by decide +kernel)
  obtain ⟨_, _, first, held, rfl, _, label⟩ :=
    ofProgram_labels mixedSource mixedProgram ⟨3⟩ (by rw [listed]; rfl) plain
  obtain ⟨_, _, second, heldNamed, rfl, _, labelNamed⟩ :=
    ofProgram_labels mixedSource mixedProgram ⟨5⟩ (by rw [listed]; rfl) named
  obtain ⟨_, _, third, heldUnpacked, rfl, _, labelUnpacked⟩ :=
    ofProgram_labels mixedSource mixedProgram ⟨7⟩ (by rw [listed]; rfl) unpacked
  rw [label.mpr trivial] at held
  rw [labelNamed.mpr (by decide)] at heldNamed
  rw [labelUnpacked.mpr (by decide)] at heldUnpacked
  exact ⟨first, second, third, held, heldNamed, heldUnpacked⟩

def commentedSource : String :=
  "<?php f(name: /* c */ $x);"

-- A call with a named argument and a comment behind the colon.
def commentedProgram : List Statement :=
  [.other ⟨0, 5⟩, .expression ⟨6, 26⟩ (.functionCall ⟨6, 25⟩ (.identifier ⟨6, 7⟩) (.mk ⟨7, 25⟩
    [.named ⟨8, 24⟩ ⟨8, 12⟩ (.variable ⟨22, 24⟩)]))]

/-- The reader leaves the named argument without a label. -/
theorem label_lost_to_comment : ∃ given,
    originAt (origins commentedSource commentedProgram) ⟨4⟩ = some (.argument given)
      ∧ Leads commentedSource given (.named "name" "" " /* c */ ")
      ∧ (ofProgram commentedSource commentedProgram).shape? ⟨4⟩ = some (.argument none false ⟨3⟩)
      ∧ (Tree.parse commentedSource).toOption.map (·.shape? ⟨4⟩)
        = some (some (.argument none false ⟨3⟩)) := by
  have callee : isNameText (slice commentedSource 6 7) = true := by decide +kernel
  have behind : Trivia " /* c */ ".toList :=
    .blank (by decide) (@Trivia.block [' ', 'c', ' ', '*', '/'] [' '] (by decide)
      (.blank (by decide) .nil))
  refine ⟨.named ⟨8, 24⟩ ⟨8, 12⟩ (.variable ⟨22, 24⟩), ?_, ?_, by decide +kernel, by decide +kernel⟩
  · simp [originAt, origins, commentedProgram, statementOrigins, Statement.origins, Expr.origins, named,
      ArgumentList.origins, argumentOrigins, Argument.origins, Expr.span, callee]
  · exact .named (by decide +kernel) (by decide +kernel) .nil behind (by decide +kernel)

end Tree

end Codemod
