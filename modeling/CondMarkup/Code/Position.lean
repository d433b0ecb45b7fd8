import CondMarkup.Code.Token

/-!
What may come next at a place in source code. It decides whether a slash starts a regular
expression or divides, whether `<` starts markup or compares, and whether a brace opens a block or
an object. All of this follows from the tokens before the place, of which a position keeps what
is needed.
-/

namespace CondMarkup

/-- How the statement that a place lies in begins. -/
inductive StatementHead where
  /-- With `case` or `default`: a colon ends it. -/
  | case
  /-- With a single name so far, which a colon makes a label. -/
  | name
  | other
  deriving DecidableEq, Repr

/-- What may come next. -/
structure Position where
  /-- Whether an operand is expected, and not an operator. -/
  operand : Bool
  /-- Whether a statement may start. -/
  statement : Bool
  /-- Whether the name of a property is expected. -/
  property : Bool := false
  /-- Whether the head of a conditional statement or a loop is expected, in parentheses. -/
  control : Bool := false
  head : StatementHead := .other

namespace Position

/-- At the start of a program or block. -/
def blockStart : Position := { operand := true, statement := true }

/-- At the start of an expression. -/
def operandStart : Position := { operand := true, statement := false }

/-- After an expression. -/
def operandEnd : Position := { operand := false, statement := false }

/-- Whether a brace opens a block, and not an object. -/
def opensBlock (p : Position) : Bool := p.statement || !p.operand

/-- The position within brackets. -/
def within (p : Position) (opening : Char) : Position :=
  if opening = '\x7b' ∧ p.opensBlock then blockStart else operandStart

/-- The keywords after which an operand comes. -/
def operandKeywords : List String :=
  ["return", "typeof", "case", "in", "of", "instanceof", "new", "delete", "void", "throw", "await",
   "yield", "default", "extends", "else", "do"]

/-- The keywords after which a statement may start. -/
def statementKeywords : List String := ["else", "do"]

/-- The keywords of statements that have a head in parentheses and a body that need not be a
block. -/
def controlKeywords : List String := ["if", "while", "for", "with"]

/-- The head of the statement after one more token of it. -/
def headAfter (p : Position) (t : Token) : StatementHead :=
  if p.statement then
    match t.kind with
    | .word "case" | .word "default" => .case
    | .word _ => .name
    | _ => .other
  else if p.head = .case then .case else .other

/-- The position after a word. -/
def afterWord (p : Position) (w : String) : Position :=
  if p.property then operandEnd
  else
    { operand := operandKeywords.contains w
      statement := statementKeywords.contains w
      control := controlKeywords.contains w || (w = "await" && p.control) }

/-- The position after a mark, which may stand after a line feed. -/
def afterMark (p : Position) (m : String) (freshLine : Bool) : Position :=
  if m = "." ∨ m = "?." then { operandStart with property := true }
  else if m = ";" ∨ m = "=>" then blockStart
  else if m = ":" then { operandStart with statement := p.head ≠ .other }
  else if m = "!" ∨ m = "++" ∨ m = "--" then
    if p.operand || freshLine then operandStart else operandEnd
  else operandStart

/-- The position after a token, comments aside. -/
def after (p : Position) (t : Token) : Position :=
  let next : Position :=
    match t.kind with
    | .word w => p.afterWord w
    | .mark m => p.afterMark m t.freshLine
    | .group '\x7b' => if p.opensBlock then blockStart else operandEnd
    | .group '(' => if p.control then blockStart else operandEnd
    | .group '<' => { p with statement := false }
    | _ => operandEnd
  match t.kind with
  | .comment _ => p
  | _ => { next with head := if next.statement then .other else p.headAfter t }

end Position

end CondMarkup
