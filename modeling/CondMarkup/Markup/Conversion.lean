import CondMarkup.Markup.Grammar
import CondMarkup.Markup.Node
import CondMarkup.Text.Offsets

/-!
From the tree of a grammar to the tree of nodes. An element becomes an opening tag, a list of what
its body holds, and a closing tag; the attributes of a tag are gathered in a list of their own; and
within a body all text, character references, comments and the space between the children become
texts, one for each stretch that no other child interrupts. An element that lacks a tag stays a
node without meaning. All other nodes keep their children. Nodes have no identity here and know of no
other node; the tree of a file is built of the same nodes in their places (`Building.build`).
-/

namespace CondMarkup.Conversion

open Utf8 (DecodeError)

/-- The text without the quotation marks around it, if the same mark stands at both ends. -/
def unquote (t : Text) : Text :=
  match t, t.getLast? with
  | first :: inner@(_ :: _), some last =>
    if first = last ∧ (first = '\x27' ∨ first = '"' ∨ first = '\x60') then inner.dropLast else t
  | _, _ => t

/-- Whether a node of that type is plain text when it stands in the body of an element. -/
def isTextLike (type : String) : Bool :=
  type = "jsx_text" || type = "html_character_reference" || type = "comment"

/-- A node over the given bytes of `t`. -/
def spanned (t : Text) (start stop : Nat) (info : NodeInfo) (children : List Node) : Node :=
  Node.fresh { info with start := charPosition t start, stop := charPosition t stop } children

/-- A node in the place of a grammar node. -/
def inPlace (t : Text) (n : GrammarNode) (kind : Kind) (children : List Node)
    (value : Option String := none) : Node :=
  spanned t n.start n.stop { kind, typeName := n.type, value, named := n.named } children

/-- The text of a grammar node. -/
def textOf (t : Text) (n : GrammarNode) : Except DecodeError Text := sliceBytes t n.start n.stop

/-- An identifier in the place of a grammar node, named as it is written. -/
def identifierOf (t : Text) (n : GrammarNode) : Except DecodeError Node := do
  return inPlace t n .identifier [] (some (String.ofList (← textOf t n)))

/-- The text between two bytes of a body, if there is any. -/
def textBetween (t : Text) (start stop : Nat) : Except DecodeError (List Node) := do
  if start < stop then
    let value ← sliceBytes t start stop
    let info := { kind := .jsxText, typeName := "jsx_text", value := some (String.ofList value) }
    return [spanned t start stop info []]
  else return []

/-- The entries of a body from byte `start` to byte `stop`, where `parts` are the children with
what they become. Children that are text are taken with the text around them. -/
def bodyEntries (t : Text) (start stop : Nat) :
    List (GrammarNode × Except DecodeError Node) → Except DecodeError (List Node)
  | [] => textBetween t start stop
  | (c, converted) :: rest =>
    if isTextLike c.type then bodyEntries t start stop rest
    else do
      let text ← textBetween t start c.start
      let node ← converted
      let entries ← bodyEntries t c.stop stop rest
      return text ++ node :: entries

/-- The value of a node of a kind that has one and keeps its children. -/
def plainValue (t : Text) (n : GrammarNode) : Except DecodeError (Option String) := do
  match Kind.ofGrammarType n.type with
  | .identifier | .jsxText => return some (String.ofList (← textOf t n))
  | .stringLiteral => return some (String.ofList (unquote (← textOf t n)))
  | _ => return none

/-- The attribute list of a tag: it spans the attributes, or is empty after the tag's name. -/
def attributeList (t : Text) (name : GrammarNode) (attributes : List GrammarNode)
    (converted : List Node) : Node :=
  let start := (attributes.head?.map GrammarNode.start).getD name.stop
  let stop := (attributes.getLast?.map GrammarNode.stop).getD name.stop
  spanned t start stop { kind := .jsxAttributes, typeName := "JsxAttributes" } converted

mutual

/-- The node that a grammar node becomes. Only a node that keeps its children can be the root in
the sense that it then spans the whole text. -/
def convert (t : Text) (isRoot : Bool) (n : GrammarNode) : Except DecodeError Node := do
  if n.type = "jsx_element" ∨ n.type = "jsx_fragment" then
    match _ho : n.child? "open_tag", n.child? "close_tag" with
    | some openTag, some closeTag =>
      let isFragment := (openTag.child? "name").isNone
      let parts ← convertTagParts t openTag
      let inner := (n.childrenWithout ["open_tag", "close_tag"]).attach.map fun ⟨c, _hc⟩ =>
        (c, convert t false c)
      let entries ← bodyEntries t openTag.stop closeTag.start inner
      let list := spanned t openTag.stop closeTag.start
        { kind := .syntaxList, typeName := "SyntaxList" } entries
      if isFragment then
        return inPlace t n .jsxFragment
          [inPlace t openTag .jsxOpeningFragment [], list,
           inPlace t closeTag .jsxClosingFragment []]
      else
        return inPlace t n .jsxElement
          [inPlace t openTag .jsxOpeningElement parts, list,
           inPlace t closeTag .jsxClosingElement []]
    | _, _ =>
      let children ← n.children.attach.mapM fun ⟨c, _hc⟩ => convert t false c
      return inPlace t n .unknown children
  else if n.type = "jsx_self_closing_element" then
    return inPlace t n .jsxSelfClosingElement (← convertTagParts t n)
  else if n.type = "jsx_attribute" then
    match n.namedChildren.head? with
    | none => return inPlace t n .jsxAttribute []
    | some nameNode =>
      let name ← identifierOf t nameNode
      match _hv : n.namedChildren.getLast? with
      | some valueNode =>
        if 1 < n.namedChildren.length then
          return inPlace t n .jsxAttribute [name, ← convert t false valueNode]
        else return inPlace t n .jsxAttribute [name]
      | none => return inPlace t n .jsxAttribute [name]
  else if n.type = "import_statement" then
    let children ← n.children.attach.mapM fun ⟨c, _hc⟩ => convert t false c
    match n.child? "source" with
    | some source =>
      let module := unquote (← textOf t source)
      return inPlace t n .importDeclaration children (some (String.ofList module))
    | none => return inPlace t n .importDeclaration children
  else
    let value ← plainValue t n
    let children ← n.children.attach.mapM fun ⟨c, _hc⟩ => convert t false c
    let node := inPlace t n (Kind.ofGrammarType n.type) children value
    if isRoot then
      return Node.fresh { node.info with start := 0, stop := t.length } node.children
    else return node
termination_by (sizeOf n, 1)
decreasing_by
  · exact Prod.Lex.left _ _
      (GrammarNode.sizeOf_lt_of_mem_children (GrammarNode.mem_children_of_child? _ho))
  · exact Prod.Lex.left _ _
      (GrammarNode.sizeOf_lt_of_mem_children (GrammarNode.mem_children_of_mem_childrenWithout _hc))
  · exact Prod.Lex.left _ _ (GrammarNode.sizeOf_lt_of_mem_children _hc)
  · exact Prod.Lex.right _ (by omega)
  · exact Prod.Lex.left _ _ (GrammarNode.sizeOf_lt_of_mem_children
      (GrammarNode.mem_children_of_mem_namedChildren (List.mem_of_getLast? _hv)))
  · exact Prod.Lex.left _ _ (GrammarNode.sizeOf_lt_of_mem_children _hc)
  · exact Prod.Lex.left _ _ (GrammarNode.sizeOf_lt_of_mem_children _hc)

/-- The name of a tag followed by the list of its attributes. An attribute that is an expression in
braces is a spread. A tag without a name has no parts. -/
def convertTagParts (t : Text) (tag : GrammarNode) : Except DecodeError (List Node) := do
  match tag.child? "name" with
  | none => return []
  | some nameNode =>
    let name ← identifierOf t nameNode
    let attributes := tag.childrenIn "attribute"
    let converted ← attributes.attach.mapM fun ⟨a, _ha⟩ =>
      if a.type = "jsx_expression" then do
        let children ← a.children.attach.mapM fun ⟨c, _hc⟩ => convert t false c
        return inPlace t a .jsxSpreadAttribute children
      else convert t false a
    return [name, attributeList t nameNode attributes converted]
termination_by (sizeOf tag, 0)
decreasing_by
  · exact Prod.Lex.left _ _ (Nat.lt_trans (GrammarNode.sizeOf_lt_of_mem_children _hc)
      (GrammarNode.sizeOf_lt_of_mem_children (GrammarNode.mem_children_of_mem_childrenIn _ha)))
  · exact Prod.Lex.left _ _ (GrammarNode.sizeOf_lt_of_mem_children
      (GrammarNode.mem_children_of_mem_childrenIn _ha))

end

end CondMarkup.Conversion
