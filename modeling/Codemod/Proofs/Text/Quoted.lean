import Codemod.Php.Lexer
import Codemod.Tree.Literal
import Codemod.Text.Slice
import Mathlib.Algebra.Ring.Parity
import Mathlib.Data.List.DropRight

/-!
Single-quoted literals. Escaping puts a backslash before every quote and every backslash, so the
backslashes of an escaped text come in pairs, with one left over before each quote. A literal is
therefore over at its last quote and at no other, and stands for the text that it was made for
(`ofString_faithful`).
-/

namespace Codemod.Literal

def backslashes (chars : List Char) : Nat :=
  (chars.rtakeWhile fun c => c = '\\').length

@[simp] theorem backslashes_concat_backslash (chars : List Char) :
    backslashes (chars ++ ['\\']) = backslashes chars + 1 := by
  simp [backslashes]

theorem backslashes_concat_other (chars : List Char) {c : Char} (other : c ≠ '\\') :
    backslashes (chars ++ [c]) = 0 := by
  simp [backslashes, other]

theorem escape_append (front back : List Char) : escape (front ++ back) = escape front ++ escape back := by
  induction front with
  | nil => rfl
  | cons c rest ih =>
      simp only [List.cons_append, escape, ih]
      split <;> rfl

theorem even_backslashes_escape (chars : List Char) : Even (backslashes (escape chars)) := by
  induction chars using List.reverseRecOn with
  | nil => exact Even.zero
  | append_singleton chars c ih =>
      rw [escape_append]
      by_cases backslash : c = '\\'
      · subst backslash
        have pair : escape chars ++ escape ['\\'] = escape chars ++ ['\\'] ++ ['\\'] := by
          simp [escape]
        rw [pair, backslashes_concat_backslash, backslashes_concat_backslash]
        exact ih.add even_two
      · have last : ∃ front, escape chars ++ escape [c] = front ++ [c] := by
          by_cases quote : c = '\''
          · exact ⟨escape chars ++ ['\\'], by simp [escape, quote]⟩
          · exact ⟨escape chars, by simp [escape, quote, backslash]⟩
        obtain ⟨front, ends⟩ := last
        rw [ends, backslashes_concat_other front backslash]
        exact Even.zero

/-- A quote in an escaped text comes from a quote, with the text before it escaped and then the
backslash that belongs to it. -/
theorem before_quote {chars before after : List Char}
    (stands : escape chars = before ++ '\'' :: after) :
    ∃ front, before = escape front ++ ['\\'] := by
  induction chars generalizing before with
  | nil => simp [escape] at stands
  | cons c rest ih =>
      by_cases special : c = '\'' ∨ c = '\\'
      · rw [escape, if_pos special] at stands
        rcases before with _ | ⟨first, _ | ⟨second, before⟩⟩
        · simp at stands
        · simp only [List.cons_append, List.nil_append, List.cons.injEq] at stands
          exact ⟨[], by simp [escape, ← stands.1]⟩
        · simp only [List.cons_append, List.cons.injEq] at stands
          obtain ⟨rfl, rfl, later⟩ := stands
          obtain ⟨front, rfl⟩ := ih later
          exact ⟨c :: front, by simp [escape, special]⟩
      · rw [escape, if_neg special] at stands
        rcases before with _ | ⟨first, before⟩
        · simp only [List.nil_append, List.cons.injEq] at stands
          exact absurd (Or.inl stands.1) special
        · simp only [List.cons_append, List.cons.injEq] at stands
          obtain ⟨rfl, later⟩ := stands
          obtain ⟨front, rfl⟩ := ih later
          exact ⟨c :: front, by simp [escape, special]⟩

theorem odd_backslashes_before_quote {chars before after : List Char}
    (stands : escape chars = before ++ '\'' :: after) : Odd (backslashes before) := by
  obtain ⟨front, rfl⟩ := before_quote stands
  rw [backslashes_concat_backslash]
  exact (even_backslashes_escape front).add_one

theorem unescape_cons (decode : Char → Option Char) {c : Char} (plain : c ≠ '\\')
    (rest : List Char) : unescape decode (c :: rest) = c :: unescape decode rest := by
  cases rest with
  | nil => rfl
  | cons d rest => rw [unescape, if_neg plain]

theorem unescape_escape (chars : List Char) : unescape singleQuoted (escape chars) = chars := by
  induction chars with
  | nil => rfl
  | cons c rest ih =>
      by_cases special : c = '\'' ∨ c = '\\'
      · simp [escape, unescape, singleQuoted, special, ih]
      · have plain : c ≠ '\\' := fun same => special (Or.inr same)
        rw [escape, if_neg special, unescape_cons _ plain, ih]

/-- The reader of quoted texts goes over an escaped text up to the quote behind it. -/
theorem quotedLength?_escape (chars rest : List Char) :
    Php.quotedLength? '\'' (escape chars ++ '\'' :: rest) = some ((escape chars).length + 1) := by
  induction chars with
  | nil => rfl
  | cons c chars ih =>
      by_cases special : c = '\'' ∨ c = '\\'
      · simp [escape, special, Php.quotedLength?, ih]
        omega
      · rw [not_or] at special
        simp [escape, special, Php.quotedLength?, ih]
        omega

@[simp] theorem toList_ofString (value : String) :
    (ofString value).raw.toList = '\'' :: (escape value.toList ++ ['\'']) := by
  simp [ofString]

@[simp] theorem quote?_ofString (value : String) : (ofString value).quote? = some '\'' := by
  have quote : '\''.utf8Size = 1 := by decide
  have size : 2 ≤ (ofString value).raw.utf8ByteSize := by
    simp only [← Text.byteLength_toList, toList_ofString, Text.byteLength_cons,
      Text.byteLength_append, quote]
    omega
  have kind : (ofString value).kind = .string := rfl
  have ends : ('\'' :: (escape value.toList ++ ['\''])).getLast? = some '\'' := by
    rw [← List.cons_append, List.getLast?_concat]
  simp [quote?, kind, size, ends]

/-- A literal made for a text reads as that text, and its spelling is a quote, a body and a quote:
every quote in the body has an odd number of backslashes before it and the last quote an even
number, so that a reader of code takes the literal and nothing behind it. Different texts have
different literals. -/
theorem ofString_faithful :
    (∀ value, (ofString value).misquoted = false ∧ (ofString value).stringValue? = some value
      ∧ ∃ body, (ofString value).raw.toList = '\'' :: (body ++ ['\''])
        ∧ (∀ before after, body = before ++ '\'' :: after → Odd (backslashes before))
        ∧ Even (backslashes body)
        ∧ ∀ rest, Php.scriptLexeme '\'' (body ++ '\'' :: rest)
          = ⟨some .literalString, (ofString value).raw.length, .script⟩)
      ∧ Function.Injective ofString := by
  have reads : ∀ value, (ofString value).stringValue? = some value := by
    intro value
    simp [stringValue?, quote?_ofString, unescape_escape]
  refine ⟨fun value => ⟨?_, reads value, escape value.toList, toList_ofString value, ?_, ?_, ?_⟩, ?_⟩
  · rw [misquoted, quote?_ofString]
    decide
  · exact fun before after stands => odd_backslashes_before_quote stands
  · exact even_backslashes_escape value.toList
  · intro rest
    have length : (ofString value).raw.length = (escape value.toList).length + 2 := by
      rw [← String.length_toList, toList_ofString]
      simp
    have blank : Php.isSpace '\'' = false := by decide
    have name : Php.isNameStart '\'' = false := by decide
    simp [Php.scriptLexeme, Php.plainStringLexeme, quotedLength?_escape, length, blank, name]
    omega
  · intro first second same
    have read := congrArg stringValue? same
    rw [reads, reads] at read
    exact Option.some.inj read

end Codemod.Literal
