import CondMarkup.Markup.Building

/-!
A source file: its name, its text and the tree of its nodes. Nodes know their parents by identity
only, so a file also keeps the nodes of its source tree by identity. They stay the same when the
tree is replaced by an expanded one.
-/

namespace CondMarkup

/-- Where nodes are found by identity. -/
abbrev Links := NodeId → Option Node

/-- The node that holds `n` among its children, in the source tree. -/
def Links.parentOf (links : Links) (n : Node) : Option Node := n.parent.bind links

structure SourceFile where
  fileName : String
  text : Text
  root : Node
  /-- The nodes of the source tree in the order of their identities. -/
  nodes : Array Node

namespace SourceFile

/-- The file whose text has the given tree. -/
def ofRoot (fileName : String) (text : Text) (root : Node) : SourceFile :=
  { fileName, text, root, nodes := root.preorder.toArray }

/-- The file whose text was parsed into the given grammar tree. -/
def ofGrammar (fileName : String) (text : Text) (tree : GrammarTree) :
    Except Utf8.DecodeError SourceFile := do
  return ofRoot fileName text (← Node.ofGrammar text tree)

def links (file : SourceFile) : Links := fun i => file.nodes[i]?

/-- The file with another tree, made from the nodes of the first. -/
def withRoot (file : SourceFile) (root : Node) : SourceFile := { file with root }

@[simp] theorem links_withRoot (file : SourceFile) (root : Node) :
    (file.withRoot root).links = file.links := rfl

end SourceFile

end CondMarkup
