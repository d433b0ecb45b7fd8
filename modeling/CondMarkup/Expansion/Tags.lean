import CondMarkup.Markup.SourceFile
import CondMarkup.Expansion.Error
import CondMarkup.Text.Blank

/-!
The conditional tags. An element is an `<If>` or an `<Else>` by its tag alone, so a component of
that name counts as one. `Node.entries` is what the body of an element or fragment holds, checked:
all that a conditional tag is expanded into comes from there.
-/

namespace CondMarkup.Node

/-- Whether the node is an element, not self-closing, of the given tag. -/
def isElementOf (n : Node) (tag : String) : Bool := n.kind = .jsxElement && n.tagName = some tag

def isIf (n : Node) : Bool := n.isElementOf "If"

def isElse (n : Node) : Bool := n.isElementOf "Else"

/-- Whether the node is text of blank characters only. -/
def isBlankText (n : Node) : Bool :=
  n.kind = .jsxText && (match n.value with
    | some v => isBlank v.toList
    | none => true)

/-- The element or fragment whose body holds the node. -/
def markupParent (links : Links) (n : Node) : Option Node := do
  let list ← links.parentOf n
  if list.kind = .syntaxList then (links.parentOf list).filter hasBody else none

/-- How an element or fragment is called in messages. -/
def label (n : Node) : String :=
  if n.kind = .jsxElement then "<" ++ n.tagName.getD "None" ++ " />" else "fragment"

/-- The entries of the body of an element or fragment. It must have three parts, the second a list,
and the list may hold texts, expressions, elements and fragments; of the others all are named. -/
def entries (n : Node) : Except Cause (List Node) :=
  match n.children with
  | [_, list, _] =>
    if list.kind ≠ .syntaxList then .error (.noList n.label list.kindName)
    else match list.children.filter fun c => !c.kind.allowedInBody with
      | [] => .ok list.children
      | bad => .error (.unexpectedKinds n.label (bad.map kindName))
  | parts => .error (.partCount n.label parts.length)

theorem kind_of_isElementOf {n : Node} {tag : String} (h : n.isElementOf tag = true) :
    n.kind = .jsxElement := by
  simp only [isElementOf, Bool.and_eq_true, decide_eq_true_eq] at h
  exact h.1

theorem isElse_eq_false_of_isIf {n : Node} (h : n.isIf = true) : n.isElse = false := by
  simp only [isIf, isElementOf, Bool.and_eq_true, decide_eq_true_eq] at h
  simp [isElse, isElementOf, h.2]

theorem hasBody_of_isIf {n : Node} (h : n.isIf = true) : n.hasBody = true := by
  simp [hasBody, kind_of_isElementOf h, Kind.hasBody]

end CondMarkup.Node
