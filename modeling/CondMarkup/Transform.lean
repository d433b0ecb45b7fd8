import CondMarkup.Code.Language
import CondMarkup.Log
import CondMarkup.Expansion.Pass

/-!
Expanding a text: the text is parsed, the tree expanded and printed. The log says whether the
source was broken, which tags were expanded and which imports removed. How texts are parsed is left
to a parser that is given; a tree can also be given itself.
-/

namespace CondMarkup

/-- Why a text cannot be expanded. -/
inductive TransformError where
  /-- A part of the tree does not lie on whole characters. -/
  | decode (error : Utf8.DecodeError)
  | expansion (error : ExpansionError)
  deriving DecidableEq, Repr

/-- What a step of the expansion has to say in the log; visits are not logged. -/
def Expansion.Step.record? (fileName : String) : Expansion.Step → Option LogRecord
  | .visit _ => none
  | .expandIf start => some ⟨.debug, s!"Rewriting <If> at {start} in {fileName}"⟩
  | .removeImport module => some ⟨.debug, s!"Removing import of '{module}' in {fileName}"⟩

/-- What is logged about a source that breaks its grammar. -/
def brokenSource (fileName : String) : LogRecord :=
  ⟨.warning, s!"Syntax errors while parsing {fileName}; conversion continues on a partial tree"⟩

namespace SourceFile

/-- The file whose text was parsed into the given tree, with a warning if the source is broken. -/
def parsed (fileName : String) (text : Text) (tree : GrammarTree) :
    Journaled LogRecord TransformError SourceFile := do
  if tree.hasError then .write (brokenSource fileName)
  .lift ((ofGrammar fileName text tree).mapError .decode)

/-- The expanded file, with the log of the expansion. -/
def transformed (file : SourceFile) (marker reportedName : String) :
    Journaled LogRecord TransformError SourceFile :=
  let result := file.expand marker reportedName
  let name := (file.setting marker reportedName).fileName
  ⟨result.journal.filterMap (Expansion.Step.record? name), result.outcome.mapError .expansion⟩

/-- The text of a file. -/
def printed (file : SourceFile) : Journaled LogRecord TransformError Text :=
  .lift (file.print.mapError fun e => .expansion (.print e))

end SourceFile

/-- Expands a text that was parsed into the given tree. -/
def transformTree (fileName : String) (text : Text) (tree : GrammarTree) (marker : String) :
    Journaled LogRecord TransformError Text := do
  let file ← SourceFile.parsed fileName text tree
  (← file.transformed marker fileName).printed

/-- What makes the grammar tree of a text in a language. -/
abbrev SourceParser := Language → Text → GrammarTree

/-- Expands a text in the language that the file name tells. -/
def transformText (parse : SourceParser) (fileName : String) (text : Text) (marker : String) :
    Journaled LogRecord TransformError Text :=
  transformTree fileName text (parse (.ofFileName fileName) text) marker

end CondMarkup
