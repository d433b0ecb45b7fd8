import CondMarkup.Markup.Kind
import CondMarkup.Text.Window

/-!
Nodes of a tree of source code. A node of a source tree has an identity; a node made later, from
scratch or as a copy with other children, has none. A copy remembers as its origin the node that
it was copied from, and a made node may be given an origin too: following the origins leads from
any node to the one it stands for, its `source`. The parent of a node is kept as an identity, since
a source node goes on belonging to its source tree wherever it is put.
-/

namespace CondMarkup

/-- The identity of a node. The nodes of a source tree are counted from zero in the order in which
they start, a node before its children. -/
abbrev NodeId := Nat

/-- What a node says about itself, apart from its place among other nodes. -/
structure NodeInfo where
  kind : Kind
  /-- The type of the node in the grammar. -/
  typeName : String := ""
  /-- The text of a text, the name of an identifier or a tag, the content of a string, or the
  module of an import. -/
  value : Option String := none
  /-- Where the node starts and ends in the source text, in characters. -/
  start : Int := -1
  stop : Int := -1
  /-- Whether the grammar names the node; punctuation is not named. -/
  named : Bool := true
  /-- Whether the node was made and not read from a source. -/
  synthesized : Bool := false
  deriving DecidableEq, Repr

/-- A node with its identity, the identity of its parent, its origin and its children. -/
inductive Node where
  | mk (id : Option NodeId) (parent : Option NodeId) (origin : Option Node) (info : NodeInfo)
      (children : List Node)
  deriving Repr

namespace Node

def id : Node → Option NodeId
  | mk id _ _ _ _ => id

def parent : Node → Option NodeId
  | mk _ parent _ _ _ => parent

def origin : Node → Option Node
  | mk _ _ origin _ _ => origin

def info : Node → NodeInfo
  | mk _ _ _ info _ => info

def children : Node → List Node
  | mk _ _ _ _ children => children

def kind (n : Node) : Kind := n.info.kind

def typeName (n : Node) : String := n.info.typeName

def value (n : Node) : Option String := n.info.value

/-- A node that has no identity, no parent and no origin. -/
def fresh (info : NodeInfo) (children : List Node) : Node := mk none none none info children

/-- The node with another origin. -/
def withOrigin (n : Node) (origin : Node) : Node := mk n.id n.parent (some origin) n.info n.children

/-- A copy of the node with other children. It stays in the place of the node and has the node as
its origin. -/
def copyWith (n : Node) (children : List Node) : Node := mk none n.parent (some n) n.info children

/-- The same node: two nodes are the same when they have the same identity. Nodes without identity
are the same as no other. -/
def same (a b : Node) : Bool :=
  match a.id, b.id with
  | some i, some j => i = j
  | _, _ => false

/-- The node that the chain of origins leads to. -/
def source : Node → Node
  | mk i p none info cs => mk i p none info cs
  | mk _ _ (some o) _ _ => o.source

/-- The name of the node in messages: its kind, or its type in the grammar if the kind says
nothing. -/
def kindName (n : Node) : String :=
  if n.kind = .unknown ∧ n.typeName ≠ "" then n.typeName else n.kind.name

/-- Whether the node is a stretch of the source text. -/
def hasSource (n : Node) : Bool := 0 ≤ n.info.start && !n.info.synthesized

/-- Whether the node is an element or a fragment. -/
def hasBody (n : Node) : Bool := n.kind.hasBody

/-- The opening tag of an element or fragment. A self-closing element is its own opening tag. -/
def opening (n : Node) : Option Node :=
  if n.hasBody ∧ n.children ≠ [] then n.children.head?
  else if n.kind = .jsxSelfClosingElement then some n
  else none

/-- The tag of an element as it is written; fragments and other nodes have none. -/
def tagName (n : Node) : Option String := do
  let tag ← n.opening
  if tag.kind = .jsxOpeningElement ∨ tag.kind = .jsxSelfClosingElement then
    (← tag.children.head?).value
  else none

/-- The attribute list of an element. -/
def attributes (n : Node) : Option Node := do
  (← n.opening).children.find? fun c => c.kind = .jsxAttributes

/-- The list node that holds what is between the tags of an element or fragment. -/
def bodyList (n : Node) : Option Node :=
  if n.hasBody then n.children.find? fun c => c.kind = .syntaxList else none

/-- What is between the tags of an element or fragment. -/
def body (n : Node) : List Node := (n.bodyList.map children).getD []

/-- The name of an attribute. -/
def attributeName (n : Node) : Option String :=
  if n.kind = .jsxAttribute then n.children.head?.bind value else none

/-- The value of an attribute: its last part, if it has any besides the name. -/
def initializer (n : Node) : Option Node :=
  if n.kind = .jsxAttribute ∧ 1 < n.children.length then n.children.getLast? else none

/-- The expression within braces or parentheses, comments left aside. -/
def expression (n : Node) : Option Node :=
  if n.kind = .jsxExpression ∨ n.kind = .parenthesizedExpression then
    n.children.find? fun c => c.info.named && c.typeName != "comment"
  else none

/-- The module that an import names. -/
def moduleSpecifier (n : Node) : Option String :=
  if n.kind = .importDeclaration then n.value else none

/-! ### Numbering -/

mutual

/-- Gives identities to a node and all below it, in order from `next` on, and lets every node know
its parent. Returns the first identity that is left. -/
def number (parent : Option NodeId) (next : NodeId) : Node → Node × NodeId
  | mk _ _ origin info children =>
    let (children, after) := numberAll next (next + 1) children
    (mk (some next) parent origin info children, after)

def numberAll (parent next : NodeId) : List Node → List Node × NodeId
  | [] => ([], next)
  | c :: rest =>
    let (c, next) := c.number (some parent) next
    let (rest, next) := numberAll parent next rest
    (c :: rest, next)

end

mutual

/-- The number of nodes in the tree of a node. -/
def size : Node → Nat
  | mk _ _ _ _ children => sizeAll children + 1

def sizeAll : List Node → Nat
  | [] => 0
  | c :: rest => c.size + sizeAll rest

end

mutual

/-- The node and all nodes below it, each before its children. -/
def preorder : Node → List Node
  | mk i p o info children => mk i p o info children :: preorderAll children

def preorderAll : List Node → List Node
  | [] => []
  | c :: rest => c.preorder ++ preorderAll rest

end

@[simp] theorem id_copyWith (n : Node) (cs : List Node) : (n.copyWith cs).id = none := rfl

@[simp] theorem parent_copyWith (n : Node) (cs : List Node) :
    (n.copyWith cs).parent = n.parent := rfl

@[simp] theorem origin_copyWith (n : Node) (cs : List Node) : (n.copyWith cs).origin = some n := rfl

@[simp] theorem info_copyWith (n : Node) (cs : List Node) : (n.copyWith cs).info = n.info := rfl

@[simp] theorem children_copyWith (n : Node) (cs : List Node) : (n.copyWith cs).children = cs := rfl

theorem source_of_origin_none {n : Node} (h : n.origin = none) : n.source = n := by
  cases n with
  | mk i p o info cs =>
    simp only [origin] at h
    subst h
    simp [source]

@[simp] theorem source_copyWith (n : Node) (cs : List Node) :
    (n.copyWith cs).source = n.source := by
  simp [copyWith, source]

end Node

end CondMarkup
