import CondMarkup.Markup.Node

/-!
Making nodes that stand in no source. Nodes put into a made node are put there as they are, and go
on belonging to the place in the source tree that they come from.
-/

namespace CondMarkup.Node

/-- A made node of a kind. -/
def make (kind : Kind) (children : List Node) (value : Option String := none) : Node :=
  fresh { kind, typeName := kind.name, value, synthesized := true } children

def makeList (entries : List Node) : Node := make .syntaxList entries

def makeOpeningFragment : Node := make .jsxOpeningFragment []

def makeClosingFragment : Node := make .jsxClosingFragment []

/-- A fragment of two tags with the given entries between them. -/
def makeFragment (opening : Node) (entries : List Node) (closing : Node) : Node :=
  make .jsxFragment [opening, makeList entries, closing]

/-- An expression in braces. -/
def makeExpression (expression : Node) : Node := make .jsxExpression [expression]

/-- An expression in parentheses. -/
def makeParenthesized (expression : Node) : Node := make .parenthesizedExpression [expression]

/-- The grammar types of expressions that a question mark after them would tear apart. -/
def looseTypes : List String :=
  ["sequence_expression", "arrow_function", "assignment_expression",
   "augmented_assignment_expression", "yield_expression", "ternary_expression"]

/-- Whether an expression needs parentheses to be the condition of a ternary. -/
def bindsLoosely (n : Node) : Bool := looseTypes.contains n.typeName

/-- The ternary of a condition and two branches. -/
def makeConditional (condition whenTrue whenFalse : Node) : Node :=
  let condition := if condition.bindsLoosely then makeParenthesized condition else condition
  make .conditionalExpression [condition, whenTrue, whenFalse]

def makeNull : Node := make .nullKeyword [] (some "null")

@[simp] theorem id_make (k : Kind) (cs : List Node) (v : Option String) :
    (make k cs v).id = none := rfl

@[simp] theorem kind_make (k : Kind) (cs : List Node) (v : Option String) :
    (make k cs v).kind = k := rfl

@[simp] theorem children_make (k : Kind) (cs : List Node) (v : Option String) :
    (make k cs v).children = cs := rfl

@[simp] theorem hasSource_make (k : Kind) (cs : List Node) (v : Option String) :
    (make k cs v).hasSource = false := rfl

end CondMarkup.Node
