import CondMarkup.Expansion.Pass
import CondMarkup.Markup.Store

/-!
The expansion on a store of nodes. Nodes are known by their identities, the ones that are made are put
into the store, and a node is given its origin by writing to the store. Whatever is done to the store
is an action, and the journal lists the actions in order, also when the expansion fails: the store at
any moment is what the actions so far have made of the first one. Nodes are read from the store with
all that hangs on them, so the conditional tags are found and taken apart as anywhere else.
-/

namespace CondMarkup

/-- What is done to a store, or told on the way. -/
inductive Action where
  /-- A step of the expansion is told. -/
  | tell (step : Expansion.Step)
  /-- A node is made from scratch. -/
  | make (info : NodeInfo) (children : List NodeId)
  /-- A copy of a node is made, with other children. -/
  | copy (old : NodeId) (children : List NodeId)
  /-- The origin of a node is written. -/
  | setOrigin (target origin : NodeId)
  deriving DecidableEq, Repr

/-- The step of the expansion that an action tells. -/
def Action.step? : Action → Option Expansion.Step
  | .tell step => some step
  | _ => none

/-- Whether an action writes the origin of a node. -/
def Action.isWrite : Action → Bool
  | .setOrigin _ _ => true
  | _ => false

namespace Store

/-- The store after an action. A node that is made gets the next identity. -/
def perform (s : Store) : Action → Store
  | .tell _ => s
  | .make info children => (s.insert { info, children }).1
  | .copy old children =>
    match s.nodes[old]? with
    | none => s
    | some n => (s.insert { n with origin := some old, children }).1
  | .setOrigin target origin => s.setOrigin target origin

def performAll (s : Store) (actions : List Action) : Store := actions.foldl perform s

@[simp] theorem performAll_nil (s : Store) : s.performAll [] = s := rfl

theorem performAll_cons (s : Store) (a : Action) (as : List Action) :
    s.performAll (a :: as) = (s.perform a).performAll as := rfl

theorem performAll_append (s : Store) (as bs : List Action) :
    s.performAll (as ++ bs) = (s.performAll as).performAll bs := List.foldl_append

end Store

/-- A computation on a store. The journal lists the actions of the computation. -/
def OnStore (α : Type) := Store → Journaled Action ExpansionError α

namespace OnStore

variable {α β : Type}

def pure (a : α) : OnStore α := fun _ => .pure a

/-- The second computation starts with the store that the actions of the first have left. -/
def bind (x : OnStore α) (f : α → OnStore β) : OnStore β := fun s =>
  match (x s).outcome with
  | .ok a =>
    let rest := f a (s.performAll (x s).journal)
    ⟨(x s).journal ++ rest.journal, rest.outcome⟩
  | .error e => ⟨(x s).journal, .error e⟩

instance : Monad OnStore where
  pure := pure
  bind := bind

theorem bind_of_ok {x : OnStore α} {f : α → OnStore β} {s : Store} {actions : List Action} {a : α}
    (h : x s = ⟨actions, .ok a⟩) : (x >>= f) s =
      ⟨actions ++ (f a (s.performAll actions)).journal, (f a (s.performAll actions)).outcome⟩ := by
  show bind x f s = _
  rw [bind, h]

theorem bind_of_error {x : OnStore α} {f : α → OnStore β} {s : Store} {actions : List Action}
    {e : ExpansionError} (h : x s = ⟨actions, .error e⟩) : (x >>= f) s = ⟨actions, .error e⟩ := by
  show bind x f s = _
  rw [bind, h]

theorem bind_of_silent {x : OnStore α} {f : α → OnStore β} {s : Store} {a : α}
    (h : x s = ⟨[], .ok a⟩) : (x >>= f) s = f a s := bind_of_ok h

theorem pure_bind' (a : α) (f : α → OnStore β) : (Pure.pure a : OnStore α) >>= f = f a := by
  funext s
  exact bind_of_silent rfl

theorem map_id' (x : OnStore α) : id <$> x = x := by
  funext s
  show (x >>= fun a => Pure.pure (id a)) s = x s
  cases h : x s with
  | mk actions outcome =>
    cases outcome with
    | ok a => rw [bind_of_ok h]; simp [Pure.pure, pure, Journaled.pure]
    | error e => rw [bind_of_error h]

theorem bind_assoc' {γ : Type} (x : OnStore α) (f : α → OnStore β) (g : β → OnStore γ) :
    x >>= f >>= g = x >>= fun a => f a >>= g := by
  funext s
  cases h : x s with
  | mk actions outcome =>
    cases outcome with
    | error e => rw [bind_of_error (bind_of_error h), bind_of_error h]
    | ok a =>
      rw [bind_of_ok h]
      cases h' : f a (s.performAll actions) with
      | mk actions' outcome' =>
        have hxf : (x >>= f) s = ⟨actions ++ actions', outcome'⟩ := by rw [bind_of_ok h, h']
        cases outcome' with
        | error e => rw [bind_of_error hxf, bind_of_error h']
        | ok b =>
          rw [bind_of_ok hxf, bind_of_ok h', Store.performAll_append, List.append_assoc]

instance : LawfulMonad OnStore := LawfulMonad.mk' _ map_id' pure_bind' bind_assoc'

def act (action : Action) : OnStore Unit := fun _ => .write action

/-- An action that makes a node, with the identity of that node. -/
def create (action : Action) : OnStore NodeId := fun s => ⟨[action], .ok s.nodes.size⟩

/-- A check that may find a misuse. -/
def checked (x : Except Cause α) : OnStore α := fun _ => ⟨[], (Expansion.checked x).outcome⟩

/-- Something that may not be there. All that a node hangs together with is there, unless it hangs on
itself. -/
def expected (x : Option α) : OnStore α := fun _ =>
  match x with
  | none => .lift (.error .endless)
  | some a => .pure a

/-- The store as it is now. -/
def current : OnStore Store := fun s => .pure s

/-- The node of an identity as it is now. -/
def read (i : NodeId) : OnStore Node := do expected ((← current).node? i)

/-- The identities of the children of a node. -/
def childrenOf (i : NodeId) : OnStore (List NodeId) := do
  return (← expected (← current).nodes[i]?).children

theorem expected_of_some {x : Option α} {a : α} (h : x = some a) (s : Store) :
    expected x s = ⟨[], .ok a⟩ := by
  rw [h]
  rfl

theorem read_of_node? {s : Store} {i : NodeId} {n : Node} (h : s.node? i = some n) :
    read i s = ⟨[], .ok n⟩ :=
  (bind_of_silent (x := current) rfl).trans (expected_of_some h s)

theorem childrenOf_of_getElem? {s : Store} {i : NodeId} {n : StoredNode} (h : s.nodes[i]? = some n) :
    childrenOf i s = ⟨[], .ok n.children⟩ :=
  (bind_of_silent (x := current) rfl).trans (bind_of_silent (expected_of_some h s))

/-- The identity of a node that was read. -/
def identity (n : Node) : OnStore NodeId := expected n.id

theorem identity_of_id {n : Node} {i : NodeId} (h : n.id = some i) (s : Store) :
    identity n s = ⟨[], .ok i⟩ := expected_of_some h s

end OnStore

namespace InPlace

open OnStore Expansion

/-- Makes a node of a kind. -/
def make (kind : Kind) (children : List NodeId) (value : Option String := none) : OnStore NodeId :=
  create (.make (Node.make kind [] value).info children)

/-- Makes the branch of an `<If>` that holds the given entries. -/
def wrap (ifNode : NodeId) (entries : List NodeId) : OnStore NodeId := do
  let opening ← make .jsxOpeningFragment []
  act (.setOrigin opening ifNode)
  let closing ← make .jsxClosingFragment []
  let list ← make .syntaxList entries
  make .jsxFragment [opening, list, closing]

def whenTrue (i : NodeId) (ifNode : Node) : OnStore NodeId := do
  let entries ← checked ifNode.entries
  wrap i (← entries.mapM identity)

def makeNull : OnStore NodeId := make .nullKeyword [] (some "null")

def whenFalse (i : NodeId) (ifNode : Node) : OnStore NodeId := do
  match ifNode.markupParent (← current).links with
  | none => makeNull
  | some parent =>
    match ← checked (Pairing.elseBody parent ifNode) with
    | [] => makeNull
    | entries => wrap i (← entries.mapM identity)

/-- Makes what a condition is put into a ternary as. -/
def conditionPart (i : NodeId) (condition : Node) : OnStore NodeId :=
  if condition.bindsLoosely then make .parenthesizedExpression [i] else return i

/-- Makes the ternary in braces for an `<If>`, its parts not expanded yet. -/
def ternary (i : NodeId) (ifNode : Node) : OnStore NodeId := do
  let condition ← checked ifNode.condition
  let test ← identity condition
  let yes ← whenTrue i ifNode
  let no ← whenFalse i ifNode
  let test ← conditionPart test condition
  let conditional ← make .conditionalExpression [test, yes, no]
  make .jsxExpression [conditional]

/-- Visits the children of a node from left to right. The node itself is left as it is: if something
changes, a copy of it is made. -/
def visitChildren (visit : NodeId → OnStore (Option NodeId)) (i : NodeId) : OnStore NodeId := do
  let results ← (← childrenOf i).mapM fun c => return (c, ← visit c)
  if results.all fun r => r.2 = some r.1 then return i
  else create (.copy i (results.filterMap Prod.snd))

/-- Puts the ternary for an `<If>` in its place and expands what is nested in it. -/
def expandIf (visit : NodeId → OnStore (Option NodeId)) (i : NodeId) (ifNode : Node) :
    OnStore (Option NodeId) := do
  let made ← ternary i ifNode
  act (.tell (.expandIf ifNode.info.start))
  let result ← visitChildren visit made
  act (.setOrigin result i)
  return some result

/-- Removes an `<Else>`, whose body is part of a ternary already. -/
def removeElse (elseNode : Node) : OnStore (Option NodeId) := do
  match elseNode.markupParent (← current).links with
  | none => checked (.error .elseOutsideMarkup)
  | some _ => return none

/-- What is done with a node: the identity of what stands in its place, if anything does. -/
def treat (marker : String) (visit : NodeId → OnStore (Option NodeId)) (i : NodeId) (n : Node) :
    OnStore (Option NodeId) := do
  if n.moduleSpecifier = some marker then
    act (.tell (.removeImport marker))
    return none
  if n.hasBody then checked (Pairing.check n)
  if n.isIf then expandIf visit i n
  else if n.isElse then removeElse n
  else return some (← visitChildren visit i)

/-- Adds to an error the place of a node, which is read from the store. -/
def placeErrorAt (setting : Setting) (s : Store) (i : NodeId) (e : ExpansionError) : ExpansionError :=
  match s.node? i with
  | none => .endless
  | some n => placeError setting n e

/-- Adds to the error of a computation that failed the place where it was found. -/
def placingErrors {α : Type} (setting : Setting) (i : NodeId) (x : OnStore α) : OnStore α := fun s =>
  (x s).mapError (placeErrorAt setting (s.performAll (x s).journal) i)

/-- Visits a node. Visits nest no deeper than `fuel`. -/
def visit (setting : Setting) : Nat → NodeId → OnStore (Option NodeId)
  | 0, _ => expected none
  | fuel + 1, i => placingErrors setting i do
    let n ← read i
    act (.tell (.visit (if n.info.synthesized then none else n.id)))
    treat setting.marker (visit setting fuel) i n

end InPlace

namespace SourceFile

/-- Expands a file on a store that holds its tree. The result is the identity of the new root. -/
def expandOnStore (file : SourceFile) (marker reportedName : String) : OnStore NodeId := do
  let root ← OnStore.identity file.root
  let depth := Expansion.visitDepth file.nodes.size file.root
  InPlace.visitChildren (InPlace.visit (file.setting marker reportedName) depth) root

end SourceFile

end CondMarkup
