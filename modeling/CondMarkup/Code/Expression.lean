import CondMarkup.Code.Imports

/-!
The grammar type of an expression that is given as a list of tokens. What matters is the operator
that binds loosest: a comma, then whichever of a question mark, an assignment and an arrow comes
first. A question mark or an arrow within a type that follows the expression is none of them.
-/

namespace CondMarkup.Expression

/-- The operators that assign after an operation. -/
def augmentedOperators : List String :=
  ["+=", "-=", "*=", "/=", "%=", "**=", "&=", "|=", "^=", "<<=", ">>=", ">>>=", "&&=", "||=", "??="]

/-- The marks that types consist of. -/
def typeMarks : List String := ["|", "&", ".", ":", "?", "=>", "..."]

/-- Whether an operand may end with the token, so that a following `as` is an operator. -/
def endsOperand (t : Token) : Bool :=
  match t.kind with
  | .mark m => m = "!"
  | _ => true

/-- The type of an expression by the first of the deciding operators in it. `inType` is `none`
outside types, and within a type the number of its conditions that are still open. -/
def typeByOperator (before : Option Token) (inType : Option Nat) : List Token → Option String
  | [] => none
  | t :: rest =>
    match t.kind, inType with
    | .word w, none =>
      let opens := (w = "as" ∨ w = "satisfies") ∧ before.any endsOperand
      typeByOperator (some t) (if opens then some 0 else none) rest
    | .word w, some n =>
      typeByOperator (some t) (some (if w = "extends" then n + 1 else n)) rest
    | .mark m, some n =>
      if m = "?" ∧ n = 0 then some "ternary_expression"
      else if typeMarks.contains m then
        typeByOperator (some t) (some (if m = "?" then n - 1 else n)) rest
      else if m = "=" then some "assignment_expression"
      else if augmentedOperators.contains m then some "augmented_assignment_expression"
      else typeByOperator (some t) none rest
    | .mark m, none =>
      if m = "?" then some "ternary_expression"
      else if m = "=" then some "assignment_expression"
      else if m = "=>" then some "arrow_function"
      else if augmentedOperators.contains m then some "augmented_assignment_expression"
      else typeByOperator (some t) none rest
    | _, _ => typeByOperator (some t) inType rest

/-- The type of an expression of one token. -/
def typeOfSingle (t : Token) : String :=
  match t.kind with
  | .word "null" => "null"
  | .word "yield" => "yield_expression"
  | .word _ => "identifier"
  | .literal => "number"
  | .string => "string"
  | .template => "template_string"
  | .group '(' => "parenthesized_expression"
  | .group '[' => "array"
  | .group _ => "object"
  | _ => "expression"

/-- The type of the expression that consists of the given tokens, none of them a comment. -/
def typeOf (ts : List Token) : String :=
  if ts.any fun t => t.isMark "," then "sequence_expression"
  else match ts with
    | [] => "expression"
    | [t] => typeOfSingle t
    | t :: _ =>
      if t.isMark "..." then "spread_element"
      else if t.isWord "yield" then "yield_expression"
      else (typeByOperator none none ts).getD "expression"

/-- The node of the expression that consists of the given tokens, comments aside; `none` without
tokens. A piece of markup is its own node. -/
def node? (ts : List Token) : Option GrammarNode :=
  match ts.filter fun t => !t.isComment with
  | [] => none
  | first :: others =>
    match first.kind, others with
    | .markup node, [] => some node
    | _, _ =>
      let last := (others.getLast?).getD first
      some (.mk (typeOf (first :: others)) first.start last.stop true none
        (Token.nodesAll false 0 ts))

end CondMarkup.Expression
