import CondMarkup.Text.Window

/-!
Trees of a grammar: what a parser of source code yields. Every node has a type of the grammar and a
stretch of bytes, and may stand in a named field of its parent. Nothing else is assumed of such a
tree: a parser that met broken source may leave out parts or put them in odd places.
-/

namespace CondMarkup

/-- A node of a grammar tree. -/
inductive GrammarNode where
  | mk (type : String) (start stop : Nat) (named : Bool) (field : Option String)
      (children : List GrammarNode)
  deriving Repr, Inhabited

/-- A parsed text: its grammar tree and whether the text broke the grammar anywhere. -/
structure GrammarTree where
  root : GrammarNode
  hasError : Bool := false

namespace GrammarNode

def type : GrammarNode → String
  | mk type _ _ _ _ _ => type

/-- The first byte of the node. -/
def start : GrammarNode → Nat
  | mk _ start _ _ _ _ => start

/-- The byte after the node. -/
def stop : GrammarNode → Nat
  | mk _ _ stop _ _ _ => stop

def named : GrammarNode → Bool
  | mk _ _ _ named _ _ => named

/-- The field of the parent that the node stands in. -/
def field : GrammarNode → Option String
  | mk _ _ _ _ field _ => field

def children : GrammarNode → List GrammarNode
  | mk _ _ _ _ _ children => children

section Parts

variable {t : String} {a b : Nat} {n : Bool} {f : Option String} {cs : List GrammarNode}

@[simp] theorem type_mk : (mk t a b n f cs).type = t := rfl

@[simp] theorem start_mk : (mk t a b n f cs).start = a := rfl

@[simp] theorem stop_mk : (mk t a b n f cs).stop = b := rfl

@[simp] theorem field_mk : (mk t a b n f cs).field = f := rfl

@[simp] theorem children_mk : (mk t a b n f cs).children = cs := rfl

end Parts

/-- The child in a field; of several, the first. -/
def child? (n : GrammarNode) (field : String) : Option GrammarNode :=
  n.children.find? fun c => c.field = some field

/-- All children in a field. -/
def childrenIn (n : GrammarNode) (field : String) : List GrammarNode :=
  n.children.filter fun c => c.field = some field

def namedChildren (n : GrammarNode) : List GrammarNode := n.children.filter named

/-- The children except the first one in each of the given fields. -/
def childrenWithout (n : GrammarNode) (fields : List String) : List GrammarNode :=
  fields.foldl (fun cs f => cs.eraseP fun c => c.field = some f) n.children

theorem sizeOf_lt_of_mem_children {c n : GrammarNode} (h : c ∈ n.children) :
    sizeOf c < sizeOf n := by
  cases n with
  | mk t s e u f cs =>
    have := List.sizeOf_lt_of_mem h
    simp only [children] at this
    simp only [mk.sizeOf_spec]
    omega

theorem mem_children_of_child? {n c : GrammarNode} {f : String} (h : n.child? f = some c) :
    c ∈ n.children := List.mem_of_find?_eq_some h

theorem mem_children_of_mem_childrenIn {n c : GrammarNode} {f : String} (h : c ∈ n.childrenIn f) :
    c ∈ n.children := (List.mem_filter.1 h).1

theorem mem_children_of_mem_namedChildren {n c : GrammarNode} (h : c ∈ n.namedChildren) :
    c ∈ n.children := (List.mem_filter.1 h).1

theorem mem_children_of_mem_childrenWithout {n c : GrammarNode} {fields : List String}
    (h : c ∈ n.childrenWithout fields) : c ∈ n.children := by
  have key : ∀ (fs : List String) (cs : List GrammarNode),
      c ∈ fs.foldl (fun cs f => cs.eraseP fun c => c.field = some f) cs → c ∈ cs := by
    intro fs
    induction fs with
    | nil => intro cs h; exact h
    | cons f fs ih =>
      intro cs h
      exact List.mem_of_mem_eraseP (ih _ h)
  exact key fields n.children h

end GrammarNode

end CondMarkup
