import CondMarkup.Expansion.Error

/-!
The condition of an `<If>`: the expression in the braces of its first attribute with that name.
Spread attributes have no name and are passed over.
-/

namespace CondMarkup.Node

def conditionAttribute (n : Node) : Option Node := do
  (← n.attributes).children.find? fun a =>
    a.kind = .jsxAttribute && a.attributeName = some "condition"

def condition (n : Node) : Except Cause Node :=
  match n.conditionAttribute with
  | none => .error .noCondition
  | some a =>
    match a.initializer with
    | none => .error (.conditionNotExpression "no value")
    | some value =>
      if value.kind ≠ .jsxExpression then .error (.conditionNotExpression value.kindName)
      else match value.expression with
        | none => .error .conditionEmpty
        | some expression => .ok expression

end CondMarkup.Node
