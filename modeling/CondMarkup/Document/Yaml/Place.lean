import CondMarkup.Text.Window

/-!
A place in a document: the text that is left, the number of characters before it, and where in its
line it stands. Also the classes of characters that documents are made of.
-/

namespace CondMarkup.Yaml

/-- Whether the character may stand in a document at all. -/
def isAllowed (c : Char) : Bool :=
  let n := c.toNat
  n = 0x09 || n = 0x0A || n = 0x0D || (0x20 ≤ n && n ≤ 0x7E) || n = 0x85 ||
    (0xA0 ≤ n && n ≤ 0xFFFD) || 0x10000 ≤ n

/-- Whether the character ends a line. -/
def isBreak (c : Char) : Bool :=
  c = '\n' || c = '\r' || c = '\u0085' || c = '\u2028' || c = '\u2029'

/-- Whether the character ends a comment or a line of a text in block form. -/
def isLineEnd (c : Char) : Bool := c = '\n' || c = '\r' || c = '\u0085'

/-- Whether what is left of a text has ended or starts with a space, a tab or the end of a line. -/
def isGap (t : Text) : Bool :=
  match t with
  | [] => true
  | c :: _ => c = ' ' || c = '\t' || isLineEnd c

structure Place where
  rest : Text
  index : Nat := 0
  line : Nat := 0
  column : Nat := 0

namespace Place

/-- The next character. -/
def peek? (p : Place) : Option Char := p.rest.head?

/-- The place after the next character. A byte order mark takes no column. -/
def next (p : Place) : Place :=
  match p.rest with
  | [] => p
  | c :: rest =>
    if isBreak c then
      if c = '\r' ∧ rest.head? = some '\n' then { p with rest, index := p.index + 1 }
      else { rest, index := p.index + 1, line := p.line + 1, column := 0 }
    else
      { p with
        rest, index := p.index + 1
        column := if c = '\uFEFF' then p.column else p.column + 1 }

/-- The place after the next `n` characters. -/
def skip (p : Place) : Nat → Place
  | 0 => p
  | n + 1 => p.next.skip n

/-- The place after the characters that fulfil `f`. -/
def skipWhile (f : Char → Bool) (p : Place) : Place := p.skip (p.rest.takeWhile f).length

/-- Whether the next character fulfils `f`. -/
def nextIs (p : Place) (f : Char → Bool) : Bool := p.peek?.any f

/-- What a line end stands for, and the place after it; nothing if the line does not end here. -/
def lineBreak (p : Place) : Text × Place :=
  match p.rest with
  | '\r' :: '\n' :: _ => (['\n'], p.skip 2)
  | c :: _ =>
    if isLineEnd c then (['\n'], p.next)
    else if isBreak c then ([c], p.next)
    else ([], p)
  | [] => ([], p)

/-- Whether the three characters `mark` stand here on their own. -/
def standsAlone (p : Place) (mark : String) : Bool :=
  mark.toList.isPrefixOf p.rest && isGap (p.rest.drop 3)

/-- Whether a mark between documents starts here, which must be the start of a line. -/
def atDocumentMark (p : Place) : Bool := p.standsAlone "---" || p.standsAlone "..."

end Place

end CondMarkup.Yaml
