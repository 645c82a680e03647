import Codemod.Text.Slice

/-!
Replacing spans of a text. The replacements lie inside a window, do not overlap, and everything
between them is copied unchanged.
-/

namespace Codemod

structure Span where
  start : Nat
  stop : Nat
deriving DecidableEq, Repr, Inhabited

structure Replacement where
  span : Span
  text : String
deriving DecidableEq, Repr

inductive SpliceError where
  | overlapping (offset : Nat)
  | outOfBounds (span window : Span)
deriving DecidableEq, Repr

def SpliceError.message : SpliceError → String
  | .overlapping offset => s!"Overlapping edits detected at offset {offset}"
  | .outOfBounds span window =>
      s!"Edit span {span.start}..{span.stop} out of bounds for {window.start}..{window.stop}"

namespace Text

-- Text copied from the source, refused when an end falls inside a character.
def gap (source : String) (window : Span) (start stop : Nat) : Except SpliceError String :=
  match slice? source start stop with
  | some text => .ok text
  | none => .error (.outOfBounds ⟨start, stop⟩ window)

-- The window from `cursor` on, with replacements in order of their starts.
def fill (source : String) (window : Span) : List Replacement → Nat → Except SpliceError String
  | [], cursor => gap source window cursor window.stop
  | edit :: rest, cursor => do
      if edit.span.start < window.start ∨ window.stop < edit.span.stop
          ∨ edit.span.stop < edit.span.start then
        throw (.outOfBounds edit.span window)
      if edit.span.start < cursor then
        throw (.overlapping edit.span.start)
      let before ← gap source window cursor edit.span.start
      let after ← fill source window rest edit.span.stop
      return before ++ edit.text ++ after

/-- The text of the window with every replacement made. Replacements with one start keep the
order in which they were given. -/
def splice (source : String) (window : Span) (edits : List Replacement) :
    Except SpliceError String :=
  match slice? source window.start window.stop with
  | none => .error (.outOfBounds window ⟨0, source.utf8ByteSize⟩)
  | some _ =>
      fill source window
        (edits.mergeSort fun a b => decide (a.span.start ≤ b.span.start)) window.start

end Text

end Codemod
