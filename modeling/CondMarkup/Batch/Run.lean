import CondMarkup.Batch.Load
import CondMarkup.Transform

/-!
Expanding a list of files, one after another. A file that cannot be expanded is reported and the
others still are; the log and the outcomes keep the order of the list. What is written goes to the
files themselves or below a directory; it may also go nowhere, if the files are only checked.
-/

namespace CondMarkup

/-- Where expanded files go. -/
inductive Destination where
  | nowhere
  /-- To the files themselves, if they change. -/
  | inPlace
  /-- Below a directory, at the paths that lead to the files from the root of the project. -/
  | below (directory : Path)
  deriving DecidableEq, Repr

/-- Why one file is not expanded. -/
inductive FileFailure where
  | read (error : ReadError)
  | misuse (error : Located Cause)
  deriving DecidableEq, Repr

/-- What a failure is reported as. -/
def FileFailure.message : FileFailure → String
  | read error => s!"cannot read file: {error.message}"
  | misuse error => error.report Cause.message

/-- What ends a run early. -/
inductive RunError where
  /-- An expanded file cannot be written. -/
  | write (error : FileError)
  | print (error : PrintError)
  | endless
  deriving DecidableEq, Repr

/-- What became of one file: whether it changed, or why it was not expanded. -/
structure FileOutcome where
  path : Path
  result : Except FileFailure Bool

def FileOutcome.ok (o : FileOutcome) : Bool := o.result.toBool

/-- The state of a run: the files as they are, the log, and the outcomes so far. -/
structure RunState where
  tree : FileTree
  log : List LogRecord := []
  outcomes : List FileOutcome := []

namespace RunState

def write (s : RunState) (r : LogRecord) : RunState := { s with log := s.log ++ [r] }

def failed (s : RunState) : List FileOutcome := s.outcomes.filter fun o => !o.ok

/-- Whether all files were expanded. -/
def ok (s : RunState) : Bool := s.failed.isEmpty

end RunState

/-- A text that was read, and what it is expanded to. -/
structure Expanded where
  source : Text
  result : Text

def Expanded.changed (r : Expanded) : Bool := r.result ≠ r.source

/-- The failures of one file, told apart from what ends a run. -/
def fileFailure : TransformError → Except RunError FileFailure
  | .decode e => .ok (.read (.decode e))
  | .expansion (.misuse e) => .ok (.misuse e)
  | .expansion (.print e) => .error (.print e)
  | .expansion .endless => .error .endless

/-- Reads and expands the text of a file. The log is that of the expansion. -/
def FileTree.transformFile (tree : FileTree) (parse : SourceParser) (marker : String) (p : Path) :
    Journaled LogRecord (Except RunError FileFailure) Expanded :=
  match tree.readText p with
  | .error e => .lift (.error (.ok (.read e)))
  | .ok source => do
    let result ← (transformText parse p.text source marker).mapError fileFailure
    return { source, result }

/-- Where a file goes below a directory: to its path from the base, or to its name if it is not
below the base. -/
def FileTree.destination (tree : FileTree) (base directory p : Path) : Path :=
  directory.join
    (((tree.resolve p).relativeTo? (tree.resolve base)).getD
      { parts := if p.name = "" then [] else [p.name] })

/-- The tree after an expanded file is written. -/
def FileTree.deliver (tree : FileTree) (base : Path) (destination : Destination) (p : Path)
    (r : Expanded) : Except FileError FileTree :=
  match destination with
  | .nowhere => .ok tree
  | .inPlace => if r.changed then tree.write p (Utf8.encode r.result) else .ok tree
  | .below directory => do
    let target := tree.destination base directory p
    let tree ← tree.makeDirectories target.parent target.parts.length
    tree.write target (Utf8.encode r.result)

/-- What the log says of a file whose expansion failed. -/
def failureRecord (p : Path) (f : FileFailure) : LogRecord :=
  match f with
  | .misuse _ => ⟨.error, f.message⟩
  | .read _ => ⟨.error, s!"{p.text}: {f.message}"⟩

/-- Expands one file. -/
def runFile (parse : SourceParser) (config : Config) (base : Path) (destination : Destination)
    (s : RunState) (p : Path) : Except (RunError × RunState) RunState :=
  let visited := s.tree.transformFile parse config.marker p
  let s := { s with log := s.log ++ visited.journal }
  match visited.outcome with
  | .error (.error e) => .error (e, s)
  | .error (.ok f) =>
    .ok { s.write (failureRecord p f) with outcomes := s.outcomes ++ [⟨p, .error f⟩] }
  | .ok r =>
    let word := if r.changed then "rewritten" else "unchanged"
    let s := s.write ⟨.info, s!"{p.text}: {word}"⟩
    match s.tree.deliver base destination p r with
    | .error e => .error (.write e, s)
    | .ok tree => .ok { s with tree, outcomes := s.outcomes ++ [⟨p, .ok r.changed⟩] }

/-- Expands the files from a state on. What ends the run early comes with the state that it ended
in. -/
def runFiles (parse : SourceParser) (config : Config) (base : Path) (destination : Destination)
    (s : RunState) (files : List Path) : Except (RunError × RunState) RunState :=
  files.foldlM (runFile parse config base destination) s

/-- Expands files of a tree. -/
def FileTree.run (tree : FileTree) (parse : SourceParser) (config : Config) (base : Path)
    (destination : Destination) (files : List Path) : Except (RunError × RunState) RunState :=
  runFiles parse config base destination { tree } files

end CondMarkup
