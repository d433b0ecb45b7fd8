import CondMarkup.Markup.Synthesis
import CondMarkup.Expansion.Condition
import CondMarkup.Expansion.Pairing

/-!
The ternary that takes the place of an `<If>`. Its branches are fragments around the bodies of the
`<If>` and of the `<Else>` that belongs to it; without such an `<Else>`, or if that is empty, the
second branch is `null`. The opening tag of each fragment has the `<If>` as its origin.
-/

namespace CondMarkup.Branches

/-- The opening tag of a branch of an `<If>`. -/
def openingFor (ifNode : Node) : Node := Node.makeOpeningFragment.withOrigin ifNode

/-- The branch of an `<If>` that holds the given entries. -/
def wrap (ifNode : Node) (entries : List Node) : Node :=
  Node.makeFragment (openingFor ifNode) entries Node.makeClosingFragment

def whenTrue (ifNode : Node) : Except Cause Node := do
  return wrap ifNode (← ifNode.entries)

def whenFalse (links : Links) (ifNode : Node) : Except Cause Node := do
  match ifNode.markupParent links with
  | none => return Node.makeNull
  | some parent =>
    match ← Pairing.elseBody parent ifNode with
    | [] => return Node.makeNull
    | entries => return wrap ifNode entries

/-- The ternary in braces for an `<If>`, its parts not expanded yet. -/
def ternary (links : Links) (ifNode : Node) : Except Cause Node := do
  let condition ← ifNode.condition
  let yes ← whenTrue ifNode
  let no ← whenFalse links ifNode
  return Node.makeExpression (Node.makeConditional condition yes no)

end CondMarkup.Branches
