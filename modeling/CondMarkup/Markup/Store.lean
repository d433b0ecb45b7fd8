import CondMarkup.Markup.SourceFile

/-!
A store of nodes, for building trees step by step. A store keeps each node under its identity and
tells its parent, its origin and its children by their identities, so that these may be set at any
time and in any order. A node is read from the store with all that hangs on it; that fails if it
hangs on itself.
-/

namespace CondMarkup

/-- A node as a store keeps it. -/
structure StoredNode where
  info : NodeInfo
  parent : Option NodeId := none
  origin : Option NodeId := none
  children : List NodeId := []
  deriving DecidableEq, Repr

structure Store where
  nodes : Array StoredNode := #[]

namespace Store

/-- The store with one node more, and the identity of that node. -/
def insert (s : Store) (n : StoredNode) : Store × NodeId :=
  ({ nodes := s.nodes.push n }, s.nodes.size)

/-- The store of all nodes of a numbered tree. -/
def ofRoot (root : Node) : Store :=
  { nodes := (root.preorder.map fun n =>
      { info := n.info, parent := n.parent, children := n.children.filterMap Node.id }).toArray }

def modify (s : Store) (i : NodeId) (f : StoredNode → StoredNode) : Store :=
  { nodes := s.nodes.modify i f }

def setParent (s : Store) (i : NodeId) (parent : Option NodeId) : Store :=
  s.modify i fun n => { n with parent }

def setOrigin (s : Store) (i origin : NodeId) : Store :=
  s.modify i fun n => { n with origin := some origin }

def setChildren (s : Store) (i : NodeId) (children : List NodeId) : Store :=
  s.modify i fun n => { n with children }

/-- The node of an identity, if it is no more than `depth` steps deep. A step leads to the origin or
to a child. -/
def unfold (s : Store) : Nat → NodeId → Option Node
  | 0, _ => none
  | depth + 1, i => do
    let n ← s.nodes[i]?
    let origin ← match n.origin with
      | none => some none
      | some o => (s.unfold depth o).map some
    let children ← n.children.mapM (s.unfold depth)
    return .mk (some i) n.parent origin n.info children

/-- The node of an identity, with all that hangs on it. What does not hang on itself is no deeper
than there are nodes. -/
def node? (s : Store) (i : NodeId) : Option Node := s.unfold s.nodes.size i

def links (s : Store) : Links := s.node?

mutual

/-- The store with a node and what hangs on it, and the identity of that node. Nodes that have an
identity are in the store already. -/
def add (s : Store) : Node → Store × NodeId
  | .mk (some i) _ _ _ _ => (s, i)
  | .mk none parent none info children =>
    let (s, children) := s.addAll children
    s.insert { info, parent, children }
  | .mk none parent (some origin) info children =>
    let (s, origin) := s.add origin
    let (s, children) := s.addAll children
    s.insert { info, parent, origin := some origin, children }

def addAll (s : Store) : List Node → Store × List NodeId
  | [] => (s, [])
  | n :: rest =>
    let (s, i) := s.add n
    let (s, others) := s.addAll rest
    (s, i :: others)

end

@[simp] theorem size_insert (s : Store) (n : StoredNode) :
    (s.insert n).1.nodes.size = s.nodes.size + 1 := by
  simp [insert]

/-- Inserting a node leaves the others as they are. -/
theorem getElem?_insert_of_lt (s : Store) (n : StoredNode) {i : NodeId} (h : i < s.nodes.size) :
    (s.insert n).1.nodes[i]? = s.nodes[i]? := by
  simp [insert, Array.getElem?_push_lt h, Array.getElem?_eq_getElem h]

@[simp] theorem size_modify (s : Store) (i : NodeId) (f : StoredNode → StoredNode) :
    (s.modify i f).nodes.size = s.nodes.size := by
  simp [modify]

end Store

end CondMarkup
