import CondMarkup.Markup.Visit
import CondMarkup.Expansion.Branches
import CondMarkup.Expansion.Journal

/-!
The expansion of the conditional tags of a source file. It walks the tree from the top: an import
of the marker module is removed, an `<If>` is replaced by a ternary, an `<Else>` is removed since
the ternary has taken its body, and every other node is kept with its children expanded. The parts
of a ternary are visited like any other node, so that what is nested in them is expanded too. The
journal lists what was visited and what was done, in order, also when the expansion fails.
-/

namespace CondMarkup.Expansion

/-- One step of an expansion. -/
inductive Step where
  /-- A node is visited; made nodes have no identity. -/
  | visit (id : Option NodeId)
  /-- The ternary for the `<If>` at a position is made. -/
  | expandIf (start : Int)
  /-- An import of a module is removed. -/
  | removeImport (module : String)
  deriving DecidableEq, Repr

/-- What an expansion is given besides the nodes. -/
structure Setting where
  /-- The module whose imports are removed. -/
  marker : String
  /-- The file name that errors are reported with. -/
  fileName : String
  /-- The source text. -/
  text : Text
  links : Links

/-- What a visit of a node comes to, with the journal of the visit. -/
abbrev Visited := Journaled Step ExpansionError Change

/-- A check that may find a misuse. -/
def checked {α : Type} (x : Except Cause α) : Journaled Step ExpansionError α :=
  .lift (x.mapError fun cause => .misuse { what := cause })

/-- Adds to an error the place where it was found, which is the given node if that is part of the
source. -/
def placeError (setting : Setting) (n : Node) : ExpansionError → ExpansionError
  | .misuse e =>
    if n.hasSource then
      match n.print setting.text with
      | .ok text => .misuse (e.withPlace setting.fileName text)
      | .error e => .print e
    else .misuse e
  | e => e

/-- Puts the ternary for an `<If>` in its place and expands what is nested in it. -/
def expandIf (setting : Setting) (recur : Node → Visited) (n : Node) : Visited := do
  let ternary ← checked (Branches.ternary setting.links n)
  .write (.expandIf n.info.start)
  let change ← ternary.visitChildren recur
  return .replace (((change.result ternary).getD ternary).withOrigin n)

/-- Removes an `<Else>`, whose body is part of a ternary already. -/
def removeElse (setting : Setting) (n : Node) : Visited :=
  match n.markupParent setting.links with
  | none => checked (.error .elseOutsideMarkup)
  | some _ => return .remove

/-- What is done with a node, where `recur` visits the nodes below it. -/
def treat (setting : Setting) (recur : Node → Visited) (n : Node) : Visited := do
  if n.moduleSpecifier = some setting.marker then
    .write (.removeImport setting.marker)
    return .remove
  if n.hasBody then checked (Pairing.check n)
  if n.isIf then expandIf setting recur n
  else if n.isElse then removeElse setting n
  else n.visitChildren recur

/-- Visits a node. Visits nest no deeper than `fuel`. -/
def visit (setting : Setting) : Nat → Node → Visited
  | 0, _ => .lift (.error .endless)
  | fuel + 1, n =>
    let visited : Visited := do
      .write (.visit n.id)
      treat setting (visit setting fuel) n
    visited.mapError (placeError setting n)

/-- How deep visits of a node may nest if they come to an end, where the source has `count` nodes: no
node is visited within its own visit, and at most three made nodes lie between one node of the
source and the next. -/
def visitDepth (count : Nat) (n : Node) : Nat := 4 * (count + n.size + 1)

end CondMarkup.Expansion

namespace CondMarkup

namespace SourceFile

open Expansion

/-- The setting for the expansion of a file. Errors are reported with `reportedName`, or with the
name of the file if that is empty. -/
def setting (file : SourceFile) (marker reportedName : String) : Setting :=
  { marker, text := file.text, links := file.links,
    fileName := if reportedName = "" then file.fileName else reportedName }

/-- The file with every conditional tag expanded and every import of the module `marker`
removed. -/
def expand (file : SourceFile) (marker reportedName : String) :
    Journaled Step ExpansionError SourceFile := do
  let setting := file.setting marker reportedName
  let change ← file.root.visitChildren (visit setting (visitDepth file.nodes.size file.root))
  return file.withRoot ((change.result file.root).getD file.root)

end SourceFile

end CondMarkup
