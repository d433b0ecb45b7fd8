import CondMarkup.Text.Window

/-!
Blank characters: the white space of Unicode together with the four ASCII separators, so more
than the six characters that `Char.isWhitespace` knows. Text made of blank characters only does
not separate two pieces of markup.
-/

namespace CondMarkup

/-- The inclusive ranges of code points that are blank. -/
def blankRanges : List (Nat × Nat) :=
  [(0x09, 0x0D), (0x1C, 0x20), (0x85, 0x85), (0xA0, 0xA0), (0x1680, 0x1680), (0x2000, 0x200A),
   (0x2028, 0x2029), (0x202F, 0x202F), (0x205F, 0x205F), (0x3000, 0x3000)]

/-- A blank character is one whose code point lies in one of the ranges. -/
def isBlankChar (c : Char) : Bool :=
  blankRanges.any fun r => r.1 ≤ c.toNat && c.toNat ≤ r.2

/-- A text of blank characters only, the empty text included. -/
def isBlank (t : Text) : Bool := t.all isBlankChar

/-- The text without the blank characters at its end. -/
def trimEnd (t : Text) : Text := (t.reverse.dropWhile isBlankChar).reverse

@[simp] theorem isBlank_nil : isBlank [] = true := rfl

end CondMarkup
