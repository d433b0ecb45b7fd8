import CondMarkup.Code.Cursor

/-!
The smallest parts of source code. Each reader takes the place where a part may start to the place
after it: names, numbers, strings, regular expressions, comments, and the marks, of which the
longest that fits is read.
-/

namespace CondMarkup.Lexis

/-- White space between the parts of source code. -/
def isSpace (c : Char) : Bool :=
  let n := c.toNat
  (0x09 ≤ n && n ≤ 0x0D) || n = 0x20 || n = 0xA0 || n = 0x1680 || (0x2000 ≤ n && n ≤ 0x200B) ||
    n = 0x2028 || n = 0x2029 || n = 0x202F || n = 0x205F || n = 0x2060 || n = 0x3000 || n = 0xFEFF

/-- The ASCII characters besides space and control characters that are no part of a name. -/
def separators : List Char :=
  [';', '\x60', '"', '\x27', '@', '#', '.', ',', '|', '^', '&', '<', '=', '>', '+', '-', '*', '/',
   '\\', '%', '?', '!', '~', '(', ')', '[', ']', '\x7b', '\x7d']

/-- Characters that names consist of. -/
def isNameChar (c : Char) : Bool :=
  0x20 < c.toNat && c != ':' && !isSpace c && !separators.contains c

/-- Characters that a name may start with. -/
def isNameStart (c : Char) : Bool := isNameChar c && !c.isDigit

/-- The place after the rest of a name, in which characters may be written by their code. -/
def restOfName (fuel : Nat) (c : Cursor) : Cursor :=
  match fuel, c.rest with
  | fuel + 1, '\\' :: 'u' :: '\x7b' :: _ =>
    restOfName fuel ((c.skip 3).skipWhile (fun x => x != '\x7d') |>.skip 1)
  | fuel + 1, '\\' :: 'u' :: _ => restOfName fuel (c.skip 6)
  | fuel + 1, x :: _ => if isNameChar x then restOfName fuel (c.skip 1) else c
  | _, _ => c

/-- The place after a name; a private name starts with a number sign. -/
def name? (c : Cursor) : Option Cursor :=
  let body (c : Cursor) : Option Cursor :=
    match c.rest with
    | '\\' :: 'u' :: _ => some (restOfName c.rest.length c)
    | x :: _ => if isNameStart x then some (restOfName c.rest.length c) else none
    | [] => none
  match c.rest with
  | '#' :: _ => body (c.skip 1)
  | _ => body c

/-- The place after the rest of a number, of which letters, digits and dots are part, and a sign
after the letter that starts an exponent. -/
def restOfNumber (isHex : Bool) (c : Cursor) : Nat → Cursor
  | 0 => c
  | fuel + 1 =>
    match c.rest with
    | x :: y :: z :: _ =>
      if !isHex && (x = 'e' || x = 'E') && (y = '+' || y = '-') && z.isDigit then
        restOfNumber isHex (c.skip 2) fuel
      else if isNameChar x || x = '.' then restOfNumber isHex (c.skip 1) fuel
      else c
    | x :: _ => if isNameChar x || x = '.' then restOfNumber isHex (c.skip 1) fuel else c
    | [] => c

/-- The place after a number. -/
def number? (c : Cursor) : Option Cursor :=
  let starts := match c.rest with
    | '.' :: x :: _ => x.isDigit
    | x :: _ => x.isDigit
    | [] => false
  let isHex := c.startsWith "0x" || c.startsWith "0X"
  if starts then some (restOfNumber isHex (c.skip 1) c.rest.length) else none

/-- The place after the closing quotation mark of a string. A backslash takes the next character
into the string, else a line feed may not be in it. -/
def restOfString (quote : Char) (c : Cursor) : Nat → Option Cursor
  | 0 => none
  | fuel + 1 =>
    match c.rest with
    | '\\' :: _ :: _ => restOfString quote (c.skip 2) fuel
    | x :: _ =>
      if x = quote then some (c.skip 1)
      else if x = '\n' then none
      else restOfString quote (c.skip 1) fuel
    | [] => none

/-- The place after a string. -/
def string? (c : Cursor) : Option Cursor :=
  match c.rest with
  | '"' :: _ => restOfString '"' (c.skip 1) c.rest.length
  | '\x27' :: _ => restOfString '\x27' (c.skip 1) c.rest.length
  | _ => none

/-- The place after the closing slash and the flags of a regular expression. Within brackets a
slash does not close it. -/
def restOfRegex (inBrackets : Bool) (c : Cursor) : Nat → Option Cursor
  | 0 => none
  | fuel + 1 =>
    match c.rest with
    | '\n' :: _ => none
    | '\\' :: '\n' :: _ => none
    | '\\' :: _ :: _ => restOfRegex inBrackets (c.skip 2) fuel
    | '[' :: _ => restOfRegex true (c.skip 1) fuel
    | ']' :: _ => restOfRegex false (c.skip 1) fuel
    | '/' :: _ =>
      if inBrackets then restOfRegex true (c.skip 1) fuel
      else some ((c.skip 1).skipWhile Char.isAlpha)
    | _ :: _ => restOfRegex inBrackets (c.skip 1) fuel
    | [] => none

/-- The place after a regular expression. -/
def regex? (c : Cursor) : Option Cursor :=
  match c.rest with
  | '/' :: '/' :: _ => none
  | '/' :: '*' :: _ => none
  | '/' :: _ => restOfRegex false (c.skip 1) c.rest.length
  | _ => none

/-- The place after the end mark of a comment, or the end of the text. -/
def restOfComment (c : Cursor) : Nat → Cursor
  | 0 => c
  | fuel + 1 =>
    match c.rest with
    | '*' :: '/' :: _ => c.skip 2
    | _ :: _ => restOfComment (c.skip 1) fuel
    | [] => c

/-- The place before the next line feed. -/
def endOfLine (c : Cursor) : Cursor := c.skipWhile fun x => x != '\n'

/-- The place after a comment. -/
def comment? (c : Cursor) : Option Cursor :=
  match c.rest with
  | '/' :: '/' :: _ => some (endOfLine c)
  | '/' :: '*' :: _ => some (restOfComment (c.skip 2) c.rest.length)
  | _ => none

/-- The place after a comment in the manner of markup documents, which ends with its line. -/
def documentComment? (c : Cursor) : Option Cursor :=
  if c.startsWith "<!--" || c.startsWith "-->" then some (endOfLine c) else none

/-- The marks of more than one character, each before those that it starts with. -/
def longMarks : List String :=
  [">>>=", "...", "===", "!==", "**=", "<<=", ">>=", ">>>", "&&=", "||=", "??=", "=>", "==", "!=",
   "<=", ">=", "&&", "||", "??", "?.", "++", "--", "+=", "-=", "*=", "/=", "%=", "&=", "|=", "^=",
   "<<", ">>", "**"]

/-- Whether the rest starts with the mark. A question mark, a dot and a digit are a question mark
and a number. -/
def startsWithMark (c : Cursor) (mark : String) : Bool :=
  c.startsWith mark && !(mark = "?." && ((c.rest.drop 2).head?.any Char.isDigit))

/-- The mark that the rest starts with. -/
def mark? (c : Cursor) : Option String :=
  match longMarks.find? (startsWithMark c) with
  | some mark => some mark
  | none => c.peek?.map fun x => String.ofList [x]

/-- The place after a character reference in the text of markup. -/
def reference? (c : Cursor) : Option Cursor :=
  let close (c : Cursor) (digits : Nat) (most : Nat) : Option Cursor :=
    if 1 ≤ digits ∧ digits ≤ most then (c.skip digits).skipOver? ";" else none
  let isHexDigit (x : Char) : Bool := x.isDigit || "abcdefABCDEF".toList.contains x
  match c.rest with
  | '&' :: '#' :: 'x' :: rest => close (c.skip 3) (rest.takeWhile isHexDigit).length 6
  | '&' :: '#' :: 'X' :: rest => close (c.skip 3) (rest.takeWhile isHexDigit).length 6
  | '&' :: '#' :: rest => close (c.skip 2) (rest.takeWhile Char.isDigit).length 5
  | '&' :: rest => close (c.skip 1) (rest.takeWhile Char.isAlpha).length 30
  | _ => none

/-- What lies between two parts within a tag: space and comments. -/
def trivia (c : Cursor) : Nat → Cursor
  | 0 => c
  | fuel + 1 =>
    match comment? c with
    | some after => trivia after fuel
    | none => if c.peek?.any isSpace then trivia (c.skipWhile isSpace) fuel else c

end CondMarkup.Lexis
