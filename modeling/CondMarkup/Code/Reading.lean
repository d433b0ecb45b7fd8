import CondMarkup.Code.Expression
import CondMarkup.Code.Language
import CondMarkup.Code.Lexis
import CondMarkup.Code.Position

/-!
Reading source code into tokens, and the markup in it into grammar nodes. Where an operand may
stand, `<` is first read as the start of an element; if no element can be read there, it opens type
parameters or is an operator. Readers return `none` where the text does not have the form that they
read. Every reader passes on less fuel than it was given, and a reader that is given none fails.
-/

namespace CondMarkup.Reading

open Lexis

/-- The brackets that group tokens, each with the one that closes it. -/
def closingOf (opening : Char) : Option Char :=
  match opening with
  | '(' => some ')'
  | '[' => some ']'
  | '\x7b' => some '\x7d'
  | _ => none

def isClosing (x : Char) : Bool := x = ')' || x = ']' || x = '\x7d'

/-- The marks that may stand between angle brackets around types. -/
def marksInTypes : List String := [",", "|", "&", ".", "=>", "=", "-", "?", ":", "..."]

/-- Whether a token may stand between angle brackets around types. A question mark may stand there
after the word `extends` only. -/
def fitsTypes (extended : Bool) (t : Token) : Bool :=
  match t.kind with
  | .mark m => marksInTypes.contains m && (extended || m != "?")
  | .markup _ => false
  | _ => true

/-- The words that may follow type arguments. -/
def wordsAfterTypes : List String :=
  ["extends", "implements", "as", "satisfies", "is", "in", "of", "instanceof"]

/-- Whether what follows may follow type arguments, so that `<` before them did not compare. -/
def mayFollowTypes (c : Cursor) : Bool :=
  let next := trivia c c.rest.length
  let gap := c.rest.take (c.rest.length - next.rest.length)
  match next.rest with
  | [] => true
  | x :: _ =>
    gap.contains '\n' || "()[]\x7b\x7d;,.:=?|&\x60".toList.contains x ||
      wordsAfterTypes.contains (String.ofList (next.takeWhile isNameChar))

/-- The place after a name in a tag, which may have hyphens. -/
def tagWord? (c : Cursor) : Option Cursor :=
  if c.peek?.any isNameStart then some (c.skipWhile fun x => isNameChar x || x = '-') else none

/-- The place after the further parts of a name in a tag, with whether a colon was among what
joins them. -/
def restOfTagName (joints : List Char) (c : Cursor) : Nat → Cursor × Bool
  | 0 => (c, false)
  | fuel + 1 =>
    let next := trivia c c.rest.length
    match next.rest with
    | x :: _ =>
      if joints.contains x then
        match tagWord? (trivia (next.skip 1) c.rest.length) with
        | some after =>
          let (stop, colon) := restOfTagName joints after fuel
          (stop, colon || x = ':')
        | none => (c, false)
      else (c, false)
    | [] => (c, false)

/-- The name of a tag: words joined by dots or by a colon. -/
def tagName? (field : Option String) (c : Cursor) : Option (GrammarNode × Cursor) := do
  let after ← tagWord? c
  let (stop, colon) := restOfTagName ['.', ':'] after c.rest.length
  let type := if colon then "jsx_namespace_name" else "identifier"
  return (.mk type c.offset stop.offset true field [], stop)

/-- The name of an attribute: a word, or two joined by a colon. -/
def attributeName? (c : Cursor) : Option (GrammarNode × Cursor) := do
  let after ← tagWord? c
  let (stop, colon) := restOfTagName [':'] after 1
  let type := if colon then "jsx_namespace_name" else "property_identifier"
  return (.mk type c.offset stop.offset true none [], stop)

/-- A string as the value of an attribute. It may hold line feeds, and no character is special in
it but the one that closes it. -/
def attributeString? (c : Cursor) : Option (GrammarNode × Cursor) :=
  match c.rest with
  | q :: _ =>
    if q = '"' ∨ q = '\x27' then
      let inner := (c.skip 1).skipWhile fun x => x != q
      if inner.rest = [] then none
      else
        let stop := inner.skip 1
        some (.mk "string" c.offset stop.offset true none [], stop)
    else none
  | [] => none

/-- A closing tag. -/
def closingTag? (c : Cursor) : Option (GrammarNode × Cursor) := do
  let inner := trivia (← c.skipOver? "</") c.rest.length
  let named := match tagName? none inner with
    | some (_, after) => trivia after c.rest.length
    | none => inner
  let stop ← named.skipOver? ">"
  return (.mk "jsx_closing_element" c.offset stop.offset true (some "close_tag") [], stop)

/-- Whether the character is plain text in the body of an element. -/
def isPlain (x : Char) : Bool := !"<>\x7b\x7d&".toList.contains x

/-- A token without tokens within. -/
def leaf (kind : TokenKind) (c stop : Cursor) (freshLine : Bool) : Token × Cursor :=
  (.mk kind c.offset stop.offset freshLine [], stop)

/-- The text between two places. -/
def textBetween (c stop : Cursor) : String :=
  String.ofList (c.rest.take (c.rest.length - stop.rest.length))

/-- A token that is neither in brackets nor a template, nor begins with `<`. -/
def plainToken? (p : Position) (freshLine : Bool) (c : Cursor) : Option (Token × Cursor) :=
  match string? c with
  | some stop => some (leaf .string c stop freshLine)
  | none =>
    match if p.operand then regex? c else none with
    | some stop => some (leaf .literal c stop freshLine)
    | none =>
      match number? c with
      | some stop => some (leaf .literal c stop freshLine)
      | none =>
        match name? c with
        | some stop => some (leaf (.word (textBetween c stop)) c stop freshLine)
        | none => (mark? c).map fun m => leaf (.mark m) c (c.skip m.length) freshLine

/-- What the comment from one place to another means for the lines. -/
def commentForm (c stop : Cursor) : CommentForm :=
  if !c.startsWith "/*" then .toLineEnd
  else if (textBetween c stop).contains '\n' then .overLines
  else .withinLine

/-- The comment that the rest starts with. Where an operand may stand, comments in the manner of
markup documents are comments too. -/
def commentAt? (p : Position) (c : Cursor) : Option Cursor :=
  match comment? c with
  | some stop => some stop
  | none => if p.operand then documentComment? c else none

mutual

/-- The tokens up to the closing bracket, and the place after it; without a closing bracket, all
tokens to the end. -/
def tokens (language : Language) (closing : Option Char) (p : Position) (freshLine : Bool)
    (c : Cursor) : Nat → Option (List Token × Cursor)
  | 0 => none
  | fuel + 1 =>
    match c.peek? with
    | none => if closing.isNone then some ([], c) else none
    | some x =>
      if isSpace x then
        let fresh := freshLine || (c.takeWhile isSpace).contains '\n'
        tokens language closing p fresh (c.skipWhile isSpace) fuel
      else if closing = some x then some ([], c.skip 1)
      else if closing.isSome && isClosing x then none
      else do
        let (t, rest) ← match commentAt? p c with
          | some stop => some (leaf (.comment (commentForm c stop)) c stop freshLine)
          | none => token language p freshLine c fuel
        let (ts, stop) ← tokens language closing (p.after t) false rest fuel
        return (t :: ts, stop)

/-- One token. -/
def token (language : Language) (p : Position) (freshLine : Bool) (c : Cursor) :
    Nat → Option (Token × Cursor)
  | 0 => none
  | fuel + 1 =>
    match c.peek? with
    | none => none
    | some x =>
      match closingOf x with
      | some closing => do
        let (ts, stop) ← tokens language (some closing) (p.within x) false (c.skip 1) fuel
        return (.mk (.group x) c.offset stop.offset freshLine ts, stop)
      | none =>
        if x = '\x60' then do
          let (ts, stop) ← template language (c.skip 1) fuel
          return (.mk .template c.offset stop.offset freshLine ts, stop)
        else if x = '<' then
          match if p.operand && language = .tsx then element language none c fuel else none with
          | some (node, stop) => some (leaf (.markup node) c stop freshLine)
          | none =>
            match types language false (c.skip 1) fuel with
            | some (ts, stop) =>
              if p.operand || mayFollowTypes stop then
                some (.mk (.group '<') c.offset stop.offset freshLine ts, stop)
              else plainToken? p freshLine c
            | none => plainToken? p freshLine c
        else plainToken? p freshLine c

/-- The tokens in the placeholders of a template, from after its opening mark. -/
def template (language : Language) (c : Cursor) : Nat → Option (List Token × Cursor)
  | 0 => none
  | fuel + 1 =>
    match c.rest with
    | [] => none
    | '\\' :: _ => template language (c.skip 2) fuel
    | '\x60' :: _ => some ([], c.skip 1)
    | '$' :: '\x7b' :: _ => do
      let (ts, rest) ← tokens language (some '\x7d') .operandStart false (c.skip 2) fuel
      let (others, stop) ← template language rest fuel
      return (ts ++ others, stop)
    | _ :: _ => template language (c.skip 1) fuel

/-- The tokens of types up to the closing angle bracket, and the place after it. -/
def types (language : Language) (extended : Bool) (c : Cursor) : Nat → Option (List Token × Cursor)
  | 0 => none
  | fuel + 1 =>
    match c.peek? with
    | none => none
    | some x =>
      if isSpace x then types language extended (c.skipWhile isSpace) fuel
      else if x = '>' then some ([], c.skip 1)
      else if isClosing x then none
      else do
        let (t, rest) ← match comment? c with
          | some stop => some (leaf (.comment (commentForm c stop)) c stop false)
          | none =>
            if x = '<' then do
              let (ts, stop) ← types language false (c.skip 1) fuel
              pure (Token.mk (.group '<') c.offset stop.offset false ts, stop)
            else token language .operandEnd false c fuel
        if fitsTypes extended t then
          let (ts, stop) ← types language (extended || t.isWord "extends") rest fuel
          return (t :: ts, stop)
        else none

/-- An element or fragment, from its opening angle bracket. -/
def element (language : Language) (field : Option String) (c : Cursor) :
    Nat → Option (GrammarNode × Cursor)
  | 0 => none
  | fuel + 1 => do
    let inner := trivia (c.skip 1) c.rest.length
    let (parts, stop) ← match tagName? (some "name") inner with
      | none => pure ([], inner)
      | some (name, after) => do
        let next := trivia after c.rest.length
        let typed := if next.peek? = some '<' then
            match types language false (next.skip 1) fuel with
            | some (_, stop) => stop
            | none => after
          else after
        let (others, stop) ← attributes language typed fuel
        pure (name :: others, stop)
    match stop.skipOver? "/>" with
    | some stop =>
      if parts.isEmpty then none
      else some (.mk "jsx_self_closing_element" c.offset stop.offset true field parts, stop)
    | none => do
      let rest ← stop.skipOver? ">"
      let openTag : GrammarNode :=
        .mk "jsx_opening_element" c.offset rest.offset true (some "open_tag") parts
      let (children, stop) ← body language rest fuel
      return (.mk "jsx_element" c.offset stop.offset true field (openTag :: children), stop)

/-- The attributes of a tag, and the place before what closes the tag. -/
def attributes (language : Language) (c : Cursor) : Nat → Option (List GrammarNode × Cursor)
  | 0 => none
  | fuel + 1 =>
    let next := trivia c c.rest.length
    match next.peek? with
    | some '\x7b' => do
      let (spread, rest) ← expression language (some "attribute") next fuel
      let (others, stop) ← attributes language rest fuel
      return (spread :: others, stop)
    | _ =>
      match attributeName? next with
      | none => some ([], next)
      | some (name, after) => do
        let (value, rest) ← match (trivia after c.rest.length).skipOver? "=" with
          | none => some ([], after)
          | some start => do
            let (value, rest) ← attributeValue language (trivia start c.rest.length) fuel
            pure ([value], rest)
        let (others, stop) ← attributes language rest fuel
        return (.mk "jsx_attribute" next.offset rest.offset true (some "attribute")
          (name :: value) :: others, stop)

/-- The value of an attribute: a string, an expression in braces, or an element. -/
def attributeValue (language : Language) (c : Cursor) : Nat → Option (GrammarNode × Cursor)
  | 0 => none
  | fuel + 1 =>
    match c.peek? with
    | some '\x7b' => expression language none c fuel
    | some '<' => element language none c fuel
    | _ => attributeString? c

/-- An expression in braces, in a body or for an attribute. -/
def expression (language : Language) (field : Option String) (c : Cursor) :
    Nat → Option (GrammarNode × Cursor)
  | 0 => none
  | fuel + 1 => do
    let (ts, stop) ← tokens language (some '\x7d') .operandStart false (c.skip 1) fuel
    return (.mk "jsx_expression" c.offset stop.offset true field (Expression.node? ts).toList, stop)

/-- What stands in the body of an element up to its closing tag, and the closing tag. The text
between is left out. -/
def body (language : Language) (c : Cursor) : Nat → Option (List GrammarNode × Cursor)
  | 0 => none
  | fuel + 1 =>
    match c.rest with
    | '<' :: '/' :: _ => do
      let (tag, stop) ← closingTag? c
      return ([tag], stop)
    | '<' :: _ => do
      let (child, rest) ← element language none c fuel
      let (others, stop) ← body language rest fuel
      return (child :: others, stop)
    | '\x7b' :: _ => do
      let (child, rest) ← expression language none c fuel
      let (others, stop) ← body language rest fuel
      return (child :: others, stop)
    | '&' :: _ => do body language (← reference? c) fuel
    | x :: _ => if isPlain x then body language (c.skipWhile isPlain) fuel else none
    | [] => none

end

end CondMarkup.Reading
