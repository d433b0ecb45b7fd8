import CondMarkup.Expansion.Tags

/-!
Which `<Else>` belongs to which `<If>`: the one that follows it among the entries of a body with
nothing but blank text between them. The check looks backwards from every `<Else>`, the search for
the body of the second branch looks forwards from an `<If>`.
-/

namespace CondMarkup.Pairing

/-- Whether the nearest entry that is not blank text is an `<If>`. `before` are the entries to look at,
the nearest one first. -/
def followsIf : List Node → Bool
  | [] => false
  | n :: before => if n.isBlankText then followsIf before else n.isIf

/-- Whether every `<Else>` among the entries has an `<If>` before it, blank text aside. `before` are the
entries before these, the nearest one first. -/
def allFollowIfs (before : List Node) : List Node → Bool
  | [] => true
  | n :: rest => (!n.isElse || followsIf before) && allFollowIfs (n :: before) rest

/-- Refuses an `<Else>` in the body of a node that does not follow an `<If>`. -/
def check (parent : Node) : Except Cause Unit :=
  if allFollowIfs [] parent.body then .ok () else .error .elseWithoutIf

/-- The check in one pass without looking back. `before` is the last entry before these that is not
blank text. -/
def elsesFollowIfs (before : Option Node) : List Node → Bool
  | [] => true
  | n :: rest =>
    (!n.isElse || before.any Node.isIf) &&
      elsesFollowIfs (if n.isBlankText then before else some n) rest

/-- The body of the `<Else>` that the entries begin with, blank text aside; nothing if they begin
otherwise. -/
def leadingElse : List Node → Except Cause (List Node)
  | [] => .ok []
  | n :: rest =>
    if n.isBlankText then leadingElse rest
    else if n.isElse then n.entries
    else .ok []

/-- The entries after a node. -/
def after (n : Node) : List Node → Option (List Node)
  | [] => none
  | m :: rest => if m.same n then some rest else after n rest

/-- The body of the `<Else>` that belongs to an `<If>` in the body of `parent`. -/
def elseBody (parent ifNode : Node) : Except Cause (List Node) := do
  match after ifNode (← parent.entries) with
  | none => .error .notAmongSiblings
  | some following => leadingElse following

theorem followsIf_eq (before : List Node) :
    followsIf before = (before.find? fun n => !n.isBlankText).any Node.isIf := by
  induction before with
  | nil => rfl
  | cons n before ih =>
    rw [followsIf]
    cases hblank : n.isBlankText <;> simp [hblank, ih]

/-- Looking back from every `<Else>` comes to the same as remembering the last entry. -/
theorem allFollowIfs_eq (entries : List Node) : ∀ before : List Node,
    allFollowIfs before entries =
      elsesFollowIfs (before.find? fun n => !n.isBlankText) entries := by
  induction entries with
  | nil => exact fun _ => rfl
  | cons n rest ih =>
    intro before
    rw [allFollowIfs, elsesFollowIfs, followsIf_eq, ih]
    cases hblank : n.isBlankText <;> simp [hblank]

theorem check_eq (parent : Node) : check parent =
    if elsesFollowIfs none parent.body then .ok () else .error .elseWithoutIf := by
  rw [check, allFollowIfs_eq, List.find?_nil]

end CondMarkup.Pairing
