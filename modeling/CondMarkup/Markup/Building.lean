import CondMarkup.Markup.Conversion

/-!
How the tree of a file is built. Nodes are made one after another, and each gets the next identity and
the identity of the node that holds it before its own children are made, so a child always knows the
node that it is made for. Which nodes a grammar node becomes is what `Conversion.convert` says, where
nodes have no place in a tree yet.
-/

namespace CondMarkup.Building

open Conversion (isTextLike unquote textOf plainValue)
open Utf8 (DecodeError)

/-- A step that makes nodes. It knows the next identity, and it fails where a stretch of the text
cannot be read. -/
abbrev Build := StateT NodeId (Except DecodeError)

/-- The identity of the next node. -/
def takeId : Build NodeId := fun next => .ok (next, next + 1)

/-- Makes a node that `holder` holds, and then its children, which it holds itself. -/
def held (holder : Option NodeId) (info : NodeInfo) (children : NodeId → Build (List Node)) :
    Build Node := do
  let id ← takeId
  return .mk (some id) holder none info (← children id)

/-- What a node over the given bytes of `t` says about itself. -/
def infoOver (t : Text) (start stop : Nat) (info : NodeInfo) : NodeInfo :=
  { info with start := charPosition t start, stop := charPosition t stop }

/-- What a node in the place of a grammar node says about itself. -/
def infoOf (t : Text) (n : GrammarNode) (kind : Kind) (value : Option String := none) : NodeInfo :=
  infoOver t n.start n.stop { kind, typeName := n.type, value, named := n.named }

/-- An identifier in the place of a grammar node, named as it is written. -/
def buildIdentifier (t : Text) (holder : NodeId) (n : GrammarNode) : Build Node := do
  let value := String.ofList (← textOf t n)
  held holder (infoOf t n .identifier value) fun _ => return []

/-- The text between two bytes of a body, if there is any. -/
def buildText (t : Text) (holder : NodeId) (start stop : Nat) : Build (List Node) := do
  if start < stop then
    let value := String.ofList (← sliceBytes t start stop)
    let info := infoOver t start stop { kind := .jsxText, typeName := "jsx_text", value }
    return [← held holder info fun _ => return []]
  else return []

/-- The entries of a body from byte `start` to byte `stop`, where `parts` are the children with the
steps that make their nodes. Children that are text are taken with the text around them. -/
def buildEntries (t : Text) (holder : NodeId) (start stop : Nat) :
    List (GrammarNode × Build Node) → Build (List Node)
  | [] => buildText t holder start stop
  | (c, made) :: rest =>
    if isTextLike c.type then buildEntries t holder start stop rest
    else do
      let text ← buildText t holder start c.start
      let node ← made
      let entries ← buildEntries t holder c.stop stop rest
      return text ++ node :: entries

/-- What the attribute list of a tag says about itself. -/
def attributesInfo (t : Text) (name : GrammarNode) (attributes : List GrammarNode) : NodeInfo :=
  infoOver t ((attributes.head?.map GrammarNode.start).getD name.stop)
    ((attributes.getLast?.map GrammarNode.stop).getD name.stop)
    { kind := .jsxAttributes, typeName := "JsxAttributes" }

mutual

/-- Makes the node that a grammar node becomes, and all below it. A node that keeps its children and
that nothing holds is the root, which spans the whole text. -/
def build (t : Text) (holder : Option NodeId) (n : GrammarNode) : Build Node := do
  if n.type = "jsx_element" ∨ n.type = "jsx_fragment" then
    match _ho : n.child? "open_tag", n.child? "close_tag" with
    | some openTag, some closeTag =>
      let (kind, openKind, closeKind) : Kind × Kind × Kind :=
        if (openTag.child? "name").isNone then
          (.jsxFragment, .jsxOpeningFragment, .jsxClosingFragment)
        else (.jsxElement, .jsxOpeningElement, .jsxClosingElement)
      held holder (infoOf t n kind) fun id => do
        let openNode ← held id (infoOf t openTag openKind) fun tag => buildTagParts t tag openTag
        let listInfo := infoOver t openTag.stop closeTag.start
          { kind := .syntaxList, typeName := "SyntaxList" }
        let list ← held id listInfo fun list =>
          buildEntries t list openTag.stop closeTag.start <|
            (n.childrenWithout ["open_tag", "close_tag"]).attach.map fun ⟨c, _hc⟩ =>
              (c, build t (some list) c)
        let closeNode ← held id (infoOf t closeTag closeKind) fun _ => return []
        return [openNode, list, closeNode]
    | _, _ =>
      held holder (infoOf t n .unknown) fun id =>
        n.children.attach.mapM fun ⟨c, _hc⟩ => build t (some id) c
  else if n.type = "jsx_self_closing_element" then
    held holder (infoOf t n .jsxSelfClosingElement) fun id => buildTagParts t id n
  else if n.type = "jsx_attribute" then
    held holder (infoOf t n .jsxAttribute) fun id => do
      match n.namedChildren.head? with
      | none => return []
      | some nameNode =>
        let name ← buildIdentifier t id nameNode
        match _hv : n.namedChildren.getLast? with
        | some valueNode =>
          if 1 < n.namedChildren.length then return [name, ← build t (some id) valueNode]
          else return [name]
        | none => return [name]
  else if n.type = "import_statement" then
    let id ← takeId
    let children ← n.children.attach.mapM fun ⟨c, _hc⟩ => build t (some id) c
    match n.child? "source" with
    | some source =>
      let module := String.ofList (unquote (← textOf t source))
      return .mk (some id) holder none (infoOf t n .importDeclaration module) children
    | none => return .mk (some id) holder none (infoOf t n .importDeclaration) children
  else
    let info := infoOf t n (Kind.ofGrammarType n.type) (← plainValue t n)
    let info := if holder.isNone then { info with start := 0, stop := t.length } else info
    held holder info fun id => n.children.attach.mapM fun ⟨c, _hc⟩ => build t (some id) c
termination_by (sizeOf n, 1)
decreasing_by
  · exact Prod.Lex.left _ _
      (GrammarNode.sizeOf_lt_of_mem_children (GrammarNode.mem_children_of_child? _ho))
  · exact Prod.Lex.left _ _
      (GrammarNode.sizeOf_lt_of_mem_children (GrammarNode.mem_children_of_mem_childrenWithout _hc))
  · exact Prod.Lex.left _ _ (GrammarNode.sizeOf_lt_of_mem_children _hc)
  · exact Prod.Lex.right _ (by omega)
  · exact Prod.Lex.left _ _ (GrammarNode.sizeOf_lt_of_mem_children
      (GrammarNode.mem_children_of_mem_namedChildren (List.mem_of_getLast? _hv)))
  · exact Prod.Lex.left _ _ (GrammarNode.sizeOf_lt_of_mem_children _hc)
  · exact Prod.Lex.left _ _ (GrammarNode.sizeOf_lt_of_mem_children _hc)

/-- The name of a tag followed by the list of its attributes. An attribute that is an expression in
braces is a spread. A tag without a name has no parts. -/
def buildTagParts (t : Text) (holder : NodeId) (tag : GrammarNode) : Build (List Node) := do
  match tag.child? "name" with
  | none => return []
  | some nameNode =>
    let name ← buildIdentifier t holder nameNode
    let attributes := tag.childrenIn "attribute"
    let list ← held holder (attributesInfo t nameNode attributes) fun list =>
      attributes.attach.mapM fun ⟨a, _ha⟩ =>
        if a.type = "jsx_expression" then
          held list (infoOf t a .jsxSpreadAttribute) fun spread =>
            a.children.attach.mapM fun ⟨c, _hc⟩ => build t (some spread) c
        else build t (some list) a
    return [name, list]
termination_by (sizeOf tag, 0)
decreasing_by
  · exact Prod.Lex.left _ _ (Nat.lt_trans (GrammarNode.sizeOf_lt_of_mem_children _hc)
      (GrammarNode.sizeOf_lt_of_mem_children (GrammarNode.mem_children_of_mem_childrenIn _ha)))
  · exact Prod.Lex.left _ _ (GrammarNode.sizeOf_lt_of_mem_children
      (GrammarNode.mem_children_of_mem_childrenIn _ha))

end

end CondMarkup.Building

namespace CondMarkup

/-- The tree of nodes of a parsed text. The first identity is zero. -/
def Node.ofGrammar (t : Text) (tree : GrammarTree) : Except Utf8.DecodeError Node :=
  (Building.build t none tree.root).run' 0

end CondMarkup
