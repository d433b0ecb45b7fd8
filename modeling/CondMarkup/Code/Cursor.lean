import CondMarkup.Text.Window

/-!
A place in a text that is being read: the text that is left and the number of bytes before it. The
text that is left only ever gets shorter.
-/

namespace CondMarkup

structure Cursor where
  /-- The number of bytes read so far. -/
  offset : Nat
  /-- What is left to read. -/
  rest : Text

namespace Cursor

/-- The start of a text. -/
def ofText (t : Text) : Cursor := ⟨0, t⟩

/-- The next character. -/
def peek? (c : Cursor) : Option Char := c.rest.head?

/-- The place after the next `n` characters. -/
def skip (n : Nat) (c : Cursor) : Cursor :=
  match n, c.rest with
  | n + 1, x :: rest => skip n ⟨c.offset + x.utf8Size, rest⟩
  | _, _ => c

/-- Whether the rest starts with `s`. -/
def startsWith (c : Cursor) (s : String) : Bool := s.toList.isPrefixOf c.rest

/-- The place after `s`, if the rest starts with it. -/
def skipOver? (c : Cursor) (s : String) : Option Cursor :=
  if c.startsWith s then some (c.skip s.length) else none

/-- The place after the characters that fulfil `p`. -/
def skipWhile (p : Char → Bool) (c : Cursor) : Cursor := c.skip (c.rest.takeWhile p).length

/-- The next characters, as long as they fulfil `p`. -/
def takeWhile (p : Char → Bool) (c : Cursor) : Text := c.rest.takeWhile p

theorem rest_skip (n : Nat) (c : Cursor) : (c.skip n).rest = c.rest.drop n := by
  induction n generalizing c with
  | zero => simp [skip]
  | succ n ih =>
    obtain ⟨o, t⟩ := c
    cases t with
    | nil => simp [skip]
    | cons x rest => simp [skip, ih]

end Cursor

end CondMarkup
