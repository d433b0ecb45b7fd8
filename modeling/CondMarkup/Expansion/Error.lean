import CondMarkup.Markup.SourceFile
import CondMarkup.Markup.Printing

/-!
What can be wrong with a use of the conditional tags, and where it was found. A cause is told in
words by `Cause.message`. The place is added by the innermost step that knows it: once an error has
a place, it keeps it.
-/

namespace CondMarkup

/-- What is wrong with a use of the conditional tags. -/
inductive Cause where
  /-- An `<Else>` that does not follow an `<If>`. -/
  | elseWithoutIf
  /-- An `<Else>` that is not in the body of an element or fragment. -/
  | elseOutsideMarkup
  /-- An `<If>` without a condition. -/
  | noCondition
  /-- A condition that is not an expression in braces but what is named here. -/
  | conditionNotExpression (found : String)
  /-- A condition whose braces hold no expression. -/
  | conditionEmpty
  /-- An element or fragment whose number of parts is not three. -/
  | partCount (parent : String) (count : Nat)
  /-- An element or fragment whose second part is not the list of its entries. -/
  | noList (parent : String) (found : String)
  /-- A body with entries of kinds that do not belong there. -/
  | unexpectedKinds (parent : String) (kinds : List String)
  /-- An `<If>` that is not among the entries of its own parent. -/
  | notAmongSiblings
  deriving DecidableEq, Repr

namespace Cause

/-- The groups of causes that are told apart by the users of the library. -/
inductive Category where
  | orphanedElse
  | missingCondition
  | malformedCondition
  | malformedBody
  | inconsistency
  deriving DecidableEq, Repr

def category : Cause → Category
  | elseWithoutIf | elseOutsideMarkup => .orphanedElse
  | noCondition => .missingCondition
  | conditionNotExpression _ | conditionEmpty => .malformedCondition
  | partCount .. | noList .. | unexpectedKinds .. => .malformedBody
  | notAmongSiblings => .inconsistency

def message : Cause → String
  | elseWithoutIf => "<Else> has no matching <If>. Only whitespace is allowed between them."
  | elseOutsideMarkup => "<Else> is used a top-level node and has no associated <If> condition"
  | noCondition => "Missing 'condition' property"
  | conditionNotExpression found =>
    s!"'condition' property should be type JsxExpression, found {found}"
  | conditionEmpty => "'condition' property should be type JsxExpression, found empty JsxExpression"
  | partCount parent count => s!"{parent} has {count} children, expected 3"
  | noList parent found => s!"{parent} to contain SyntaxList, found {found}"
  | unexpectedKinds parent kinds =>
    s!"Unexpected type(s) in syntax list of {parent}: " ++ ", ".intercalate kinds
  | notAmongSiblings => "Inexplicable error - <If>s parent does not contain it"

end Cause

/-- Something wrong, with the file and the text of the node that it was found at, once known. -/
structure Located (α : Type) where
  what : α
  fileName : Option String := none
  nodeText : Option Text := none
  deriving DecidableEq, Repr

namespace Located

variable {α : Type}

/-- Whether the place is known. -/
def hasPlace (e : Located α) : Bool := e.nodeText.isSome

/-- Adds the place, unless it is known already. Parts of it may be missing. -/
def withPlace (e : Located α) (fileName : Option String) (nodeText : Option Text) : Located α :=
  if e.hasPlace then e else { e with fileName, nodeText }

/-- The whole report: what is wrong, then the file and the node, each on a line of its own. -/
def report (message : α → String) (e : Located α) : String :=
  message e.what ++ (e.fileName.map fun f => "\nIn file " ++ f).getD ""
    ++ (e.nodeText.map fun t => "\nAt node " ++ String.ofList t).getD ""

@[simp] theorem hasPlace_withPlace (e : Located α) (f : Option String) (t : Text) :
    (e.withPlace f t).hasPlace = true := by
  unfold withPlace
  split
  · assumption
  · rfl

end Located

/-- Why an expansion fails. -/
inductive ExpansionError where
  /-- A conditional tag is used wrongly. -/
  | misuse (error : Located Cause)
  /-- A node has no text. -/
  | print (error : PrintError)
  /-- The expansion goes round in circles. A tree that was read from a source has no circles. -/
  | endless
  deriving DecidableEq, Repr

end CondMarkup
