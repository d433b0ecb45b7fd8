import CondMarkup.Text.Window

/-!
Editing a text by replacing stretches of it. Replacements are collected against one text, each is
refused if it lies outside the text or overlaps one collected before, and all are applied at once:
the text between two replaced stretches is copied as it stands.
-/

namespace CondMarkup

/-- A stretch of a text by character positions. -/
structure Span where
  start : Int
  stop : Int
  start_le_stop : start ≤ stop
  deriving DecidableEq, Repr

/-- Why a replacement is refused. -/
inductive EditError where
  /-- The positions run backwards. -/
  | backwards (start stop : Int)
  /-- The stretch is not within the text. -/
  | outside (start stop : Int) (length : Nat)
  /-- The stretch overlaps one that is replaced already. -/
  | overlap (start stop : Int) (other : Span)
  deriving DecidableEq, Repr

def EditError.message : EditError → String
  | .backwards start stop => s!"Invalid range: start_char ({start}) > end_char ({stop})"
  | .outside start stop length =>
    s!"Edit {start}..{stop} is outside of the text (length {length})"
  | .overlap start stop other =>
    s!"Edit {start}..{stop} overlaps {other.start}..{other.stop}"

namespace Span

/-- The stretch between two positions, refused if they run backwards. -/
def ofPositions (start stop : Int) : Except EditError Span :=
  if h : start ≤ stop then .ok ⟨start, stop, h⟩ else .error (.backwards start stop)

/-- Whether neither stretch ends before the other starts. An empty stretch overlaps the ones it
lies strictly inside of. -/
def overlaps (a b : Span) : Bool := !(a.stop ≤ b.start || b.stop ≤ a.start)

theorem overlaps_comm (a b : Span) : a.overlaps b = b.overlaps a := by
  simp [overlaps, Bool.and_comm]

end Span

/-- A stretch and the text that takes its place. -/
structure Edit where
  span : Span
  replacement : Text
  deriving DecidableEq, Repr

/-- A text and the replacements collected for it, oldest first. -/
structure Edits where
  text : Text
  accepted : List Edit := []

namespace Edits

/-- Collects one more replacement. -/
def replace (edits : Edits) (start stop : Int) (replacement : Text) : Except EditError Edits := do
  let span ← Span.ofPositions start stop
  if start < 0 ∨ edits.text.length < stop then
    throw (.outside start stop edits.text.length)
  match edits.accepted.find? fun e => span.overlaps e.span with
  | some e => throw (.overlap start stop e.span)
  | none => return { edits with accepted := edits.accepted ++ [⟨span, replacement⟩] }

/-- Collects the removal of a stretch. -/
def delete (edits : Edits) (start stop : Int) : Except EditError Edits :=
  edits.replace start stop []

/-- The collected replacements in the order of their starts; of two that start together the one
collected first comes first. -/
def inOrder (edits : Edits) : List Edit :=
  edits.accepted.mergeSort fun a b => a.span.start ≤ b.span.start

/-- Copies `text` from `cursor` on, with the given replacements put in. -/
def applyFrom (text : Text) (cursor : Int) : List Edit → Text
  | [] => window text cursor text.length
  | e :: rest =>
    window text cursor e.span.start ++ e.replacement ++ applyFrom text e.span.stop rest

/-- The text with all collected replacements put in. -/
def apply (edits : Edits) : Text := applyFrom edits.text 0 edits.inOrder

@[simp] theorem apply_empty (t : Text) : (Edits.mk t []).apply = t := by
  simp [apply, inOrder, applyFrom, window_all]

end Edits

end CondMarkup
