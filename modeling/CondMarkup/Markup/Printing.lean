import CondMarkup.Markup.SourceFile
import CondMarkup.Text.Edits

/-!
The text of a node. A node of the source prints as its stretch of the source text. A copy prints as
the stretch of the node it was copied from, in which the children that were removed are cut out and
those that were replaced are replaced by their own text. A made node prints by its parts.
-/

namespace CondMarkup

/-- Why a node has no text. -/
inductive PrintError where
  /-- The children of a copy cannot be put into the text of the node it was copied from. -/
  | edit (error : EditError)
  /-- A made ternary does not have three parts. -/
  | ternaryParts (count : Nat)
  deriving DecidableEq, Repr

/-- The text of a made node whose children have the texts `parts`. -/
def printParts (kind : Kind) (parts : List Text) : Except PrintError Text :=
  match kind with
  | .jsxExpression => .ok ('{' :: parts.flatten ++ ['}'])
  | .parenthesizedExpression => .ok ('(' :: parts.flatten ++ [')'])
  | .conditionalExpression =>
    match parts with
    | [condition, whenTrue, whenFalse] =>
      .ok (condition ++ " ? ".toList ++ whenTrue ++ " : ".toList ++ whenFalse)
    | _ => .error (.ternaryParts parts.length)
  | .jsxOpeningFragment => .ok "<>".toList
  | .jsxClosingFragment => .ok "</>".toList
  | .nullKeyword => .ok "null".toList
  | _ => .ok parts.flatten

/-- What stands for `old` among `children`: of those whose origins lead to it, the last. -/
def standIn? (old : Node) (children : List (Node × Except PrintError Text)) :
    Option (Node × Except PrintError Text) :=
  children.reverse.find? fun c => c.1.source.same old

/-- Collects the edits that turn the text of `source` into the text of a copy with the given
children, for the children `olds` of `source`. -/
def editsOfCopy (source : Node) (children : List (Node × Except PrintError Text)) (edits : Edits) :
    List Node → Except PrintError Edits
  | [] => .ok edits
  | old :: olds => do
    let start := old.info.start - source.info.start
    let stop := old.info.stop - source.info.start
    let edits ← match standIn? old children with
      | none => (edits.delete start stop).mapError .edit
      | some (new, text) =>
        if new.same old then pure edits
        else (edits.replace start stop (← text)).mapError .edit
    editsOfCopy source children edits olds

namespace Node

mutual

/-- The text of a node within a source text. -/
def print (text : Text) : Node → Except PrintError Text
  | mk id parent origin info children =>
    let node := mk id parent origin info children
    let source := node.source
    if info.synthesized ∨ source.info.synthesized ∨ source.info.start < 0 then do
      let parts ← (printAll text children).mapM fun c => c.2
      printParts info.kind parts
    else if origin.isNone then .ok (window text info.start info.stop)
    else do
      let edits ← editsOfCopy source (printAll text children)
        { text := window text source.info.start source.info.stop } source.children
      return edits.apply

/-- The given nodes, each with its text. -/
def printAll (text : Text) : List Node → List (Node × Except PrintError Text)
  | [] => []
  | c :: rest => (c, c.print text) :: printAll text rest

end

end Node

/-- The text of the whole tree of a file. -/
def SourceFile.print (file : SourceFile) : Except PrintError Text := file.root.print file.text

end CondMarkup
