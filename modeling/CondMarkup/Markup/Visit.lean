import CondMarkup.Markup.Node

/-!
Visiting the children of a node. A visit of a node leaves it, removes it or puts another in its
place. A node none of whose children changes is left as it is; otherwise it is replaced by a copy
with the new children.
-/

namespace CondMarkup

/-- What a visit of a node comes to. -/
inductive Change where
  | keep
  | remove
  | replace (n : Node)
  deriving Inhabited, Repr

namespace Change

/-- What stands where `n` stood. -/
def result (n : Node) : Change → Option Node
  | keep => some n
  | remove => none
  | replace m => some m

def isKeep : Change → Bool
  | keep => true
  | _ => false

end Change

namespace Node

/-- What becomes of the children when each changes as given: `none` if nothing changes. -/
def changedChildren (changes : List (Node × Change)) : Option (List Node) :=
  if changes.all fun c => c.2.isKeep then none
  else some (changes.filterMap fun c => c.2.result c.1)

/-- Visits the children of a node from left to right. -/
def visitChildren {m : Type → Type} [Monad m] (visit : Node → m Change) (n : Node) : m Change := do
  let changes ← n.children.mapM fun c => return (c, ← visit c)
  return match changedChildren changes with
    | none => .keep
    | some children => .replace (n.copyWith children)

theorem changedChildren_eq_none_iff (changes : List (Node × Change)) :
    changedChildren changes = none ↔ ∀ c ∈ changes, c.2 = .keep := by
  have h : ∀ c : Change, c.isKeep = true ↔ c = .keep := by intro c; cases c <;> simp [Change.isKeep]
  simp [changedChildren, h]

end Node

end CondMarkup
