import CondMarkup.Document.Yaml.Scalar

/-!
The tokens of a document. Indentation is turned into tokens that open and close blocks, so that
what follows need not look at places any more. That a text is a key shows only when the colon after
it is reached; the tokens that say so are then put in before the text.
-/

namespace CondMarkup.Yaml

inductive Token where
  /-- A line that says something about the documents that follow, perhaps the version of the format
  that they are written in. -/
  | directive (version : Option (Nat × Nat))
  | documentStart
  | documentEnd
  | sequenceStart
  | mappingStart
  | blockEnd
  /-- An opening or closing bracket or brace, or a comma between entries. -/
  | flow (c : Char)
  /-- The dash before an entry. -/
  | entry
  | key
  | value
  | alias (name : Text)
  | anchor (name : Text)
  /-- A tag in full, after its handle is resolved. -/
  | tag (name : Text)
  | scalar (text : Text) (plain : Bool)
  deriving DecidableEq, Repr

/-- A place where a key may have started: how many tokens come before it, and whether it must be
one, since it starts a line of a block mapping. -/
structure PossibleKey where
  position : Nat
  required : Bool
  place : Place

/-- How far a document has been turned into tokens. -/
structure Layout where
  place : Place
  tokens : Array Token := #[]
  /-- The brackets and braces that are open, the innermost first. -/
  open_ : List Char := []
  /-- The indentations of the open blocks, the innermost first. -/
  indents : List Nat := []
  /-- Whether a key may start here. -/
  keyAllowed : Bool := true
  /-- The possible key at each depth of brackets. -/
  keys : List (Nat × PossibleKey) := []
  /-- The prefixes of tags that the document names, by their handles. -/
  handles : List (Text × Text) := []

namespace Layout

/-- Whether the place is within brackets. -/
def inFlow (l : Layout) : Bool := !l.open_.isEmpty

/-- The indentation of the innermost block, which is below all if there is none. -/
def indent (l : Layout) : Int := (l.indents.head?.map Int.ofNat).getD (-1)

def push (l : Layout) (t : Token) : Layout := { l with tokens := l.tokens.push t }

def pushAll (l : Layout) (ts : List Token) : Layout := { l with tokens := l.tokens ++ ts.toArray }

/-- Closes the blocks that are indented by more than `column`. Within brackets indentation does not
count. -/
def closeBlocks (l : Layout) (column : Int) : Layout :=
  if l.inFlow then l
  else
    let closed := l.indents.takeWhile fun (i : Nat) => column < (i : Int)
    { l.pushAll (closed.map fun _ => .blockEnd) with indents := l.indents.drop closed.length }

/-- Opens a block at the column unless the innermost one is there. The answer says whether it
did. -/
def openBlock (l : Layout) (column : Nat) : Layout × Bool :=
  if l.indent < column then ({ l with indents := column :: l.indents }, true) else (l, false)

/-- Gives up the possible key at this depth. It must not have been required. -/
def dropKey (l : Layout) : Option Layout :=
  let depth := l.open_.length
  if l.keys.any fun k => k.1 = depth && k.2.required then none
  else some { l with keys := l.keys.filter fun k => k.1 ≠ depth }

/-- Notes that a key may start here. -/
def noteKey (l : Layout) : Option Layout :=
  if l.keyAllowed then do
    let required := !l.inFlow && l.indent = l.place.column
    let l ← l.dropKey
    return { l with keys := (l.open_.length, ⟨l.tokens.size, required, l.place⟩) :: l.keys }
  else some l

/-- Gives up the possible keys that started in an earlier line or too far back. -/
def dropStaleKeys (l : Layout) : Option Layout :=
  let stale (k : Nat × PossibleKey) : Bool :=
    k.2.place.line ≠ l.place.line || 1024 < l.place.index - k.2.place.index
  if l.keys.any fun k => stale k && k.2.required then none
  else some { l with keys := l.keys.filter fun k => !stale k }

/-- Passes over space, comments and line ends. After a line end in a block a key may start. -/
def skipGaps (l : Layout) : Nat → Layout
  | 0 => l
  | fuel + 1 =>
    let p := l.place.skipWhile fun c => c = ' ' || (l.inFlow && c = '\t')
    let p := if p.nextIs fun c => c = '#' then p.skipWhile fun c => !isLineEnd c else p
    match p.lineBreak with
    | ([], _) => { l with place := p }
    | (_, after) =>
      { l with place := after, keyAllowed := l.keyAllowed || !l.inFlow }.skipGaps fuel

/-- A token that stands for the next `n` characters. -/
def pushMark (l : Layout) (t : Token) (n : Nat) : Layout :=
  { l.push t with place := l.place.skip n }

/-! ### Marks of structure -/

/-- A mark between documents, which closes all blocks. -/
def documentMark (l : Layout) (t : Token) (n : Nat) : Option Layout := do
  let l ← (l.closeBlocks (-1)).dropKey
  return { l.pushMark t n with keyAllowed := false }

/-- The words of a line. -/
def words (t : Text) : List Text :=
  ((String.ofList t).splitOn " ").map String.toList |>.filter fun w => !w.isEmpty

/-- A version, as two numbers joined by a dot. -/
def version? (t : Text) : Option (Nat × Nat) :=
  let major := t.takeWhile Char.isDigit
  match t.drop major.length with
  | '.' :: minor =>
    if !major.isEmpty && !minor.isEmpty && minor.all Char.isDigit then
      some (intOfDigits 10 major, intOfDigits 10 minor)
    else none
  | _ => none

/-- What a line says about the documents that follow: the handle of a tag with what it stands for,
or a version. -/
def readDirective (line : Text) : Option (Option (Text × Text) × Option (Nat × Nat)) :=
  match words (line.takeWhile fun c => c != '#') with
  | name :: args =>
    if name = "%TAG".toList then
      match args with
      | [handle, tag] => some (some (handle, tag), none)
      | _ => none
    else if name = "%YAML".toList then
      match args with
      | [version] => (version? version).map fun v => (none, some v)
      | _ => none
    else if name.length < 2 then none
    else some (none, none)
  | [] => none

/-- A line that says something about the documents that follow. -/
def directive (l : Layout) : Option Layout := do
  let l ← (l.closeBlocks (-1)).dropKey
  let line := l.place.rest.takeWhile fun c => !isBreak c
  let (handle, version) ← readDirective line
  let handles := handle.toList ++ l.handles
  return { l.pushMark (.directive version) line.length with keyAllowed := false, handles }

/-- An opening bracket or brace. -/
def openFlow (l : Layout) (c : Char) : Option Layout := do
  let l ← l.noteKey
  return { l.pushMark (.flow c) 1 with open_ := c :: l.open_, keyAllowed := true }

/-- A closing bracket or brace. -/
def closeFlow (l : Layout) (c : Char) : Option Layout := do
  let l ← l.dropKey
  return { l.pushMark (.flow c) 1 with open_ := l.open_.drop 1, keyAllowed := false }

/-- A comma between entries. -/
def flowComma (l : Layout) : Option Layout := do
  let l ← { l with keyAllowed := true }.dropKey
  return l.pushMark (.flow ',') 1

/-- The start of a block at the place, if it is not open yet; a key must be allowed there. -/
def startBlock (l : Layout) (t : Token) : Option Layout :=
  if l.inFlow then some l
  else if !l.keyAllowed then none
  else match l.openBlock l.place.column with
    | (l, true) => some (l.push t)
    | (l, false) => some l

/-- A dash before an entry. -/
def blockEntry (l : Layout) : Option Layout := do
  let l ← l.startBlock .sequenceStart
  let l ← { l with keyAllowed := true }.dropKey
  return l.pushMark .entry 1

/-- A question mark before a key. -/
def explicitKey (l : Layout) : Option Layout := do
  let l ← l.startBlock .mappingStart
  let l ← { l with keyAllowed := !l.inFlow }.dropKey
  return l.pushMark .key 1

/-- Puts the mark of a key in before a possible key. If the key starts a block mapping, the block
is opened first. -/
def markKey (l : Layout) (k : PossibleKey) : Layout :=
  let (l, marks) :=
    if l.inFlow then (l, [Token.key])
    else match l.openBlock k.place.column with
      | (l, true) => (l, [.mappingStart, .key])
      | (l, false) => (l, [.key])
  { l with
    tokens := l.tokens.extract 0 k.position ++ marks.toArray
      ++ l.tokens.extract k.position l.tokens.size }

/-- The colon before a value. -/
def colon (l : Layout) : Option Layout :=
  let depth := l.open_.length
  match l.keys.find? fun k => k.1 = depth with
  | some (_, k) =>
    let l := { l with keys := l.keys.filter fun k => k.1 ≠ depth }.markKey k
    some ({ l with keyAllowed := false }.pushMark .value 1)
  | none => do
    let l ← l.startBlock .mappingStart
    let l ← { l with keyAllowed := !l.inFlow }.dropKey
    return l.pushMark .value 1

/-! ### Names and texts -/

/-- Characters of the name of an anchor. -/
def isAnchorChar (c : Char) : Bool :=
  0x20 < c.toNat && c.toNat != 0x7F && !(0x80 ≤ c.toNat && c.toNat < 0xA0) && c != '\uFEFF' &&
    !",[]\x7b\x7d".toList.contains c

/-- An anchor or a reference to one. -/
def anchorOrAlias (l : Layout) (make : Text → Token) : Option Layout := do
  let l ← l.noteKey
  let p := l.place.next
  let name := p.rest.takeWhile isAnchorChar
  let stop := p.skip name.length
  let ends := isGap stop.rest || stop.nextIs fun c => "?:,]\x7d%@\x60".toList.contains c
  if name.isEmpty || !ends then none
  else some { l.push (make name) with place := stop, keyAllowed := false }

/-- Characters of a tag. -/
def isTagChar (c : Char) : Bool :=
  c.isAlphanum || "-;/?:@&=+$,_.!~*\x27()[]%#".toList.contains c

/-- The tags of the language itself stand for this. -/
def coreTag : Text := "tag:yaml.org,2002:".toList

/-- The handles of tags that every document knows. -/
def coreHandles : List (Text × Text) := [("!".toList, "!".toList), ("!!".toList, coreTag)]

/-- A tag: in angle brackets as it stands, else after a handle that stands for its start. -/
def tag? (handles : List (Text × Text)) (p : Place) : Option (Text × Place) :=
  match p.rest with
  | '!' :: '<' :: rest =>
    let name := rest.takeWhile fun c => isTagChar c
    let stop := p.skip (name.length + 2)
    if !name.isEmpty && stop.nextIs (fun c => c = '>') then some (name, stop.next) else none
  | _ :: rest =>
    if isGap rest then some (['!'], p.next)
    else
      let start := rest.takeWhile fun c => c.isAlphanum || c = '-' || c = '_'
      let isNamed := (rest.drop start.length).head? = some '!'
      let handle := if isNamed then '!' :: start ++ ['!'] else ['!']
      let name := (p.skip handle.length).rest.takeWhile isTagChar
      let stop := p.skip (handle.length + name.length)
      if name.isEmpty then none
      else match (handles ++ coreHandles).find? fun h => h.1 = handle with
        | some (_, start) => some (start ++ name, stop)
        | none => none
  | [] => none

def pushTag (l : Layout) : Option Layout := do
  let l ← l.noteKey
  let (name, stop) ← tag? l.handles l.place
  let ends := stop.rest.head?.all fun c => c = ' ' || isBreak c
  if ends then return { l.push (.tag name) with place := stop, keyAllowed := false } else none

def pushBlockText (l : Layout) (isFolded : Bool) : Option Layout := do
  let l ← { l with keyAllowed := true }.dropKey
  let (t, stop) ← blockText isFolded l.indent l.place.next
  return { l.push (.scalar t false) with place := stop }

def pushQuoted (l : Layout) (quote : Char) : Option Layout := do
  let l ← l.noteKey
  let (t, stop) ← quotedText quote l.place.next (l.place.rest.length + 1)
  return { l.push (.scalar t false) with place := stop, keyAllowed := false }

def pushPlain (l : Layout) : Option Layout := do
  let l ← l.noteKey
  let indent := (l.indent + 1).toNat
  let (t, stop, lineEnded) := plainText l.inFlow indent l.place (l.place.rest.length + 1)
  return { l.push (.scalar t true) with place := stop, keyAllowed := lineEnded }

/-! ### All tokens -/

/-- Whether a colon here comes before a value. -/
def isColonForValue (l : Layout) (rest : Text) : Bool :=
  match l.open_ with
  | '[' :: _ => isGap rest
  | _ :: _ => isGap rest || l.tokens.back? ≠ some .value
  | [] => isGap rest

/-- Whether a plain text may start with the character before `rest`. -/
def startsPlain (l : Layout) (c : Char) (rest : Text) : Bool :=
  if c = '-' then !isGap rest
  else if c = ':' ∧ l.inFlow then !(rest.head?.any fun c => c = ' ' || c = '\t')
  else if c = ':' ∨ c = '?' then !isGap rest && !l.inFlow
  else !" \t,[]\x7b\x7d#&*!|>\x27\"%@\x60".toList.contains c && !isBreak c

/-- One token more, at a place that is no gap. -/
def step (l : Layout) (c : Char) (rest : Text) : Option Layout :=
  let p := l.place
  if p.column = 0 ∧ c = '%' then l.directive
  else if p.column = 0 ∧ p.standsAlone "---" then l.documentMark .documentStart 3
  else if p.column = 0 ∧ p.standsAlone "..." then l.documentMark .documentEnd 3
  else if c = '[' ∨ c = '\x7b' then l.openFlow c
  else if c = ']' ∨ c = '\x7d' then l.closeFlow c
  else if c = ',' then l.flowComma
  else if c = '-' ∧ isGap rest then l.blockEntry
  else if c = '?' ∧ (l.inFlow ∨ isGap rest) then l.explicitKey
  else if c = ':' ∧ l.isColonForValue rest then l.colon
  else if c = '*' then l.anchorOrAlias .alias
  else if c = '&' then l.anchorOrAlias .anchor
  else if c = '!' then l.pushTag
  else if (c = '|' ∨ c = '>') ∧ !l.inFlow then l.pushBlockText (c = '>')
  else if c = '\x27' ∨ c = '"' then l.pushQuoted c
  else if l.startsPlain c rest then l.pushPlain
  else none

/-- All tokens from here on. -/
def finish (l : Layout) : Nat → Option (List Token)
  | 0 => none
  | fuel + 1 => do
    let l := l.skipGaps (l.place.rest.length + 1)
    let l ← l.dropStaleKeys
    let l := l.closeBlocks l.place.column
    match l.place.rest with
    | [] => do
      let l ← (l.closeBlocks (-1)).dropKey
      return l.tokens.toList
    | c :: rest => (← l.step c rest).finish fuel

end Layout

/-- The tokens of a document. A byte order mark at its start is passed over. -/
def tokens? (t : Text) : Option (List Token) :=
  if t.all isAllowed then
    let t := if t.head? = some '\uFEFF' then t.drop 1 else t
    Layout.finish { place := { rest := t } } (t.length + 1)
  else none

end CondMarkup.Yaml
