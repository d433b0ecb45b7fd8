import CondMarkup.Batch.Collect
import CondMarkup.CommandLine.Invocation

/-!
The tool as a function: from a command line and a tree of files to what it prints, its exit status
and the tree as it leaves it. The status is 0 if all went well, 1 if a file could not be expanded,
and 2 if the configuration or the command line is wrong, in which case nothing is written. What the
tool takes from elsewhere, the parser of sources and the readers of documents and of patterns, is
its toolkit.
-/

namespace CondMarkup.CommandLine

/-- What the tool reads texts with. -/
structure Toolkit where
  parse : SourceParser
  readDocument : DocumentReader
  readPatterns : PatternReader

/-- What the tool fails with where it has no exit status. -/
inductive Crash where
  | keyNotText
  | value (fault : DocumentFault)
  | decode (error : Utf8.DecodeError)
  | pattern (error : PatternError)
  | run (error : RunError)
  deriving DecidableEq, Repr

/-- What a run of the tool leaves behind. -/
structure Report where
  output : String := ""
  messages : String := ""
  tree : FileTree
  status : Except Crash Nat

/-- The level from which records are shown. Being quiet goes before being verbose. -/
def Command.logLevel (c : Command) : LogLevel :=
  if c.quiet then .error else if c.verbose then .info else .warning

/-- The lines of the log that a command shows. -/
def Command.shown (c : Command) (log : List LogRecord) : String :=
  String.join ((atLeast c.logLevel log).map fun r => r.line ++ "\n")

/-- The text of a message without space at its end, as a line. -/
def messageLine (message : String) : String :=
  String.ofList (trimEnd message.toList) ++ "\n"

/-- Where a command puts expanded files; nothing if it does not say. -/
def Command.destination? (c : Command) : Option Destination :=
  if c.checkOnly then some .nowhere
  else if c.inPlace then some .inPlace
  else c.outDir.map .below

/-- The report of a configuration that is wrong. -/
def configReport (tree : FileTree) (e : ConfigError) : Report :=
  { tree, messages := messageLine e.message, status := .ok 2 }

/-- The report of an expansion of one file to the output. -/
def singleReport (parse : SourceParser) (tree : FileTree) (c : Command) (config : Config) (p : Path) :
    Report :=
  let visited := tree.transformFile parse config.marker p
  let log := c.shown visited.journal
  match visited.outcome with
  | .ok r => { tree, output := String.ofList r.result, messages := log, status := .ok 0 }
  | .error (.ok (.misuse e)) =>
    { tree, messages := log ++ messageLine (e.report Cause.message), status := .ok 1 }
  | .error (.ok f) =>
    { tree, messages := log ++ s!"{p.text}: {f.message}\n", status := .ok 1 }
  | .error (.error e) => { tree, messages := log, status := .error (.run e) }

/-- What is said at the end of a run about the files that were checked. -/
def summary (s : RunState) : String :=
  if s.ok then s!"{s.outcomes.length} file(s) OK\n"
  else s!"{s.failed.length} of {s.outcomes.length} file(s) failed\n"

/-- The report of an expansion of several files. -/
def batchReport (tools : Toolkit) (tree : FileTree) (c : Command) (config : Config) (root : Path)
    (destination : Destination) : Report :=
  match tree.collect tools.readPatterns config root c.paths with
  | .error (.config e) => configReport tree e
  | .error (.pattern e) => { tree, status := .error (.pattern e) }
  | .ok files =>
    match tree.run tools.parse config root destination files with
    | .error (e, s) => { tree := s.tree, messages := c.shown s.log, status := .error (.run e) }
    | .ok s =>
      { tree := s.tree
        messages := c.shown s.log ++ (if c.checkOnly then summary s else "")
        status := .ok (if s.ok then 0 else 1) }

/-- The report of a command. -/
def commandReport (tools : Toolkit) (tree : FileTree) (c : Command) : Report :=
  let root : Path := { root := "/", parts := tree.workingDirectory }
  match tree.loadConfig tools.readDocument root c.config with
  | .error (.config e) => configReport tree e
  | .error .keyNotText => { tree, status := .error .keyNotText }
  | .error (.value fault) => { tree, status := .error (.value fault) }
  | .error (.decode e) => { tree, status := .error (.decode e) }
  | .ok config =>
    match c.destination?, c.paths with
    | some destination, _ => batchReport tools tree c config root destination
    | none, [p] =>
      if tree.isFile p then singleReport tools.parse tree c config p
      else configReport tree .noDestination
    | none, _ => configReport tree .noDestination

/-- The name of the tool. -/
def toolName : String := "jsxcond"

/-- How the tool is used. -/
def usage : String :=
  "usage: jsxcond [-h] [-V] \x7btransform,check\x7d ...\n"

/-- The report of a command line. -/
def report (tools : Toolkit) (version : String) (tree : FileTree) (args : List String) : Report :=
  match invocation false args with
  | .help => { tree, output := usage, status := .ok 0 }
  | .version => { tree, output := s!"{toolName} {version}\n", status := .ok 0 }
  | .misuse => { tree, messages := usage, status := .ok 2 }
  | .run c => commandReport tools tree c

end CondMarkup.CommandLine
