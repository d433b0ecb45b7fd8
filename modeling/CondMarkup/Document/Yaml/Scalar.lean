import CondMarkup.Document.Yaml.Place

/-!
Texts in a document in their three forms: plain, in quotation marks, and in block form. Lines are
folded: a single line end between two lines is read as a space, and of several the first is dropped.
Readers return `none` where the text is malformed, and all take fuel, of which the length of the
document is enough.
-/

namespace CondMarkup.Yaml

/-- What a line end followed by further ones is folded to. -/
def folded (first further : Text) : Text :=
  if first ≠ ['\n'] then first ++ further
  else if further.isEmpty then [' ']
  else further

/-! ### Texts in quotation marks -/

/-- The characters that a backslash and another character stand for. -/
def escapes : List (Char × Char) :=
  [('0', '\x00'), ('a', '\x07'), ('b', '\x08'), ('t', '\t'), ('\t', '\t'), ('n', '\n'),
   ('v', '\x0B'), ('f', '\x0C'), ('r', '\r'), ('e', '\x1B'), (' ', ' '), ('"', '"'), ('/', '/'),
   ('\\', '\\'), ('N', '\u0085'), ('_', '\u00A0'), ('L', '\u2028'), ('P', '\u2029')]

/-- How many digits follow the letter of a character that is written by its code. -/
def codeLength (c : Char) : Option Nat :=
  if c = 'x' then some 2 else if c = 'u' then some 4 else if c = 'U' then some 8 else none

def hexDigit? (c : Char) : Option Nat :=
  if c.isDigit then some (c.toNat - 48)
  else if 'a' ≤ c ∧ c ≤ 'f' then some (c.toNat - 87)
  else if 'A' ≤ c ∧ c ≤ 'F' then some (c.toNat - 55)
  else none

/-- The whole number that digits of a base stand for, underscores left out. -/
def intOfDigits (base : Nat) (t : Text) : Nat :=
  (t.filterMap hexDigit?).foldl (fun n d => n * base + d) 0

/-- The character whose code is written by `n` digits. -/
def charOfCode? (n : Nat) (t : Text) : Option Char := do
  let digits ← (t.take n).mapM hexDigit?
  if digits.length = n then
    let code := digits.foldl (fun code d => code * 16 + d) 0
    if code.isValidChar then return Char.ofNat code
    else none
  else none

/-- Line ends within quotation marks, which no mark between documents may follow. -/
def quotedBreaks (p : Place) : Nat → Option (Text × Place)
  | 0 => none
  | fuel + 1 =>
    if p.atDocumentMark then none
    else
      let p := p.skipWhile fun c => c = ' ' || c = '\t'
      match p.lineBreak with
      | ([], _) => some ([], p)
      | (b, after) => do
        let (more, stop) ← quotedBreaks after fuel
        return (b ++ more, stop)

/-- A text in quotation marks from after the opening mark. -/
def quotedText (quote : Char) (p : Place) : Nat → Option (Text × Place)
  | 0 => none
  | fuel + 1 =>
    match p.rest with
    | [] => none
    | c :: rest =>
      if c = quote then
        if quote = '\x27' ∧ rest.head? = some '\x27' then do
          let (t, stop) ← quotedText quote (p.skip 2) fuel
          return ('\x27' :: t, stop)
        else some ([], p.next)
      else if c = '\\' ∧ quote = '"' then
        match rest with
        | [] => none
        | e :: digits =>
          match escapes.find? fun r => r.1 = e with
          | some r => do
            let (t, stop) ← quotedText quote (p.skip 2) fuel
            return (r.2 :: t, stop)
          | none =>
            match codeLength e with
            | some n => do
              let x ← charOfCode? n digits
              let (t, stop) ← quotedText quote (p.skip (n + 2)) fuel
              return (x :: t, stop)
            | none =>
              if isBreak e then do
                let (breaks, next) ← quotedBreaks p.next.lineBreak.2 p.rest.length
                let (t, stop) ← quotedText quote next fuel
                return (breaks ++ t, stop)
              else none
      else if c = ' ' ∨ c = '\t' ∨ isBreak c then
        let space := p.rest.takeWhile fun c => c = ' ' || c = '\t'
        let after := p.skip space.length
        match after.lineBreak with
        | ([], _) => do
          let (t, stop) ← quotedText quote after fuel
          return (space ++ t, stop)
        | (b, next) => do
          let (breaks, next) ← quotedBreaks next p.rest.length
          let (t, stop) ← quotedText quote next fuel
          return (folded b breaks ++ t, stop)
      else do
        let (t, stop) ← quotedText quote p.next fuel
        return (c :: t, stop)

/-! ### Plain texts -/

/-- Whether a plain text, within brackets or not, ends before what is left. -/
def endsPlain (inFlow : Bool) (t : Text) : Bool :=
  match t with
  | [] => true
  | ':' :: rest => isGap rest
  | c :: _ => isGap t || (inFlow && ",[]\x7b\x7d".toList.contains c)

/-- The part of a plain text that stands here without space in it. -/
def plainWord (inFlow : Bool) : Text → Text
  | [] => []
  | c :: rest => if endsPlain inFlow (c :: rest) then [] else c :: plainWord inFlow rest

/-- Line ends within a plain text, up to a mark between documents. -/
def plainBreaks (p : Place) : Nat → Option (Text × Place)
  | 0 => none
  | fuel + 1 =>
    if p.atDocumentMark then none
    else
      let p := p.skipWhile fun c => c = ' '
      match p.lineBreak with
      | ([], _) => some ([], p)
      | (b, after) => do
        let (more, stop) ← plainBreaks after fuel
        return (b ++ more, stop)

/-- What the space after a word of a plain text comes to, and the place after it: `none` for the
text if the words end here. The last part says whether a line ended. -/
def plainSpace (p : Place) : Option Text × Place × Bool :=
  let space := p.rest.takeWhile fun c => c = ' '
  let after := p.skip space.length
  match after.lineBreak with
  | ([], _) => (if space.isEmpty then none else some space, after, false)
  | (b, next) =>
    match plainBreaks next p.rest.length with
    | none => (none, next, true)
    | some (breaks, stop) => (some (folded b breaks), stop, true)

/-- A plain text whose lines are indented by at least `indent`. The last part says whether a line
ended after it. -/
def plainText (inFlow : Bool) (indent : Nat) (p : Place) : Nat → Text × Place × Bool
  | 0 => ([], p, false)
  | fuel + 1 =>
    let word := plainWord inFlow p.rest
    let (space, next, lineEnded) := plainSpace (p.skip word.length)
    match space with
    | none => (word, next, lineEnded)
    | some space =>
      if next.nextIs (fun c => c = '#') || (!inFlow && next.column < indent) ||
          (plainWord inFlow next.rest).isEmpty then
        (word, next, lineEnded)
      else
        let (more, stop, lineEnded) := plainText inFlow indent next fuel
        (word ++ space ++ more, stop, lineEnded)

/-! ### Texts in block form -/

/-- What becomes of the line ends at the end of a text in block form. -/
inductive Chomp where
  | strip
  | clip
  | keep
  deriving DecidableEq

/-- The signs after the mark of a text in block form: a sign for its end and a digit for its
indentation, in any order. -/
def blockSigns (p : Place) : Option (Chomp × Option Nat × Place) :=
  let chomp (p : Place) : Chomp × Place :=
    match p.rest with
    | '+' :: _ => (.keep, p.next)
    | '-' :: _ => (.strip, p.next)
    | _ => (.clip, p)
  let digit (p : Place) : Option (Option Nat × Place) :=
    match p.rest with
    | '0' :: _ => none
    | c :: _ => if c.isDigit then some (some (c.toNat - 48), p.next) else some (none, p)
    | [] => some (none, p)
  do
    let (c, afterSign) := chomp p
    let (d, afterDigit) ← digit afterSign
    let (c, stop) := if c = .clip then chomp afterDigit else (c, afterDigit)
    if stop.rest.head?.all fun c => c = ' ' || isBreak c then return (c, d, stop) else none

/-- The place after the rest of the first line of a text in block form, which may hold a comment. -/
def blockHeaderEnd (p : Place) : Option Place :=
  let p := p.skipWhile fun c => c = ' '
  let p := if p.nextIs fun c => c = '#' then p.skipWhile fun c => !isLineEnd c else p
  if p.rest.head?.all isBreak then some p.lineBreak.2 else none

/-- The line ends before the first line of a text in block form, and the greatest indentation among
the lines that are passed. -/
def blockStart (p : Place) (most : Nat) : Nat → Text × Nat × Place
  | 0 => ([], most, p)
  | fuel + 1 =>
    let p := p.skipWhile fun c => c = ' '
    let most := max most p.column
    match p.lineBreak with
    | ([], _) => ([], most, p)
    | (b, after) =>
      let (more, most, stop) := blockStart after most fuel
      (b ++ more, most, stop)

/-- The line ends from here on, passing over no more space than the indentation of the text. -/
def blockBreaks (indent : Nat) (p : Place) : Nat → Text × Place
  | 0 => ([], p)
  | fuel + 1 =>
    let space := (p.rest.takeWhile fun c => c = ' ').length
    let p := p.skip (min space (indent - p.column))
    match p.lineBreak with
    | ([], _) => ([], p)
    | (b, after) =>
      let (more, stop) := blockBreaks indent after fuel
      (b ++ more, stop)

/-- The lines of a text in block form from here on, with the line end after the last of them and
the empty lines that follow. `before` is what stands between the lines so far and this one. -/
def blockLines (isFolded : Bool) (indent : Nat) (before : Text) (p : Place) :
    Nat → Text × Text × Text × Place
  | 0 => ([], [], [], p)
  | fuel + 1 =>
    if p.column ≠ indent ∨ p.rest.isEmpty ∨ (indent = 0 ∧ p.atDocumentMark) then ([], [], before, p)
    else
      let isText (p : Place) : Bool := !p.nextIs fun c => c = ' ' || c = '\t'
      let line := p.rest.takeWhile fun c => !isLineEnd c
      let (b, after) := (p.skip line.length).lineBreak
      let (breaks, next) := blockBreaks indent after p.rest.length
      let goesOn := next.column = indent ∧ !next.rest.isEmpty ∧
        ¬ (indent = 0 ∧ next.atDocumentMark)
      if goesOn then
        let joint :=
          if isFolded && b = ['\n'] && isText p && isText next then
            if breaks.isEmpty then [' '] else []
          else b
        let (more, final, further, stop) := blockLines isFolded indent breaks next fuel
        (before ++ line ++ joint ++ more, final, further, stop)
      else (before ++ line, b, breaks, next)

/-- A text in block form from after its mark, within a block that is indented by `parent`. -/
def blockText (isFolded : Bool) (parent : Int) (p : Place) : Option (Text × Place) := do
  let (chomp, digit, p) ← blockSigns p
  let p ← blockHeaderEnd p
  let fuel := p.rest.length + 1
  let least := (parent + 1).toNat
  let (breaks, indent, p) := match digit with
    | none =>
      let (breaks, most, p) := blockStart p 0 fuel
      (breaks, max least most, p)
    | some d =>
      let indent := max least 1 + d - 1
      let (breaks, p) := blockBreaks indent p fuel
      (breaks, indent, p)
  let (lines, final, further, stop) := blockLines isFolded indent breaks p fuel
  return (match chomp with
    | .strip => lines
    | .clip => lines ++ final
    | .keep => lines ++ final ++ further, stop)

end CondMarkup.Yaml
