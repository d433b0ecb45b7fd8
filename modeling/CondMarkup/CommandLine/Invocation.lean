import CondMarkup.Batch.Run
import CondMarkup.CommandLine.Options

/-!
What a command line asks for: help, the version, or a command with its paths and options. A command
line that asks for nothing that the tool can do is a misuse.
-/

namespace CondMarkup.CommandLine

/-- A command with its options. -/
structure Command where
  /-- Whether files are only checked and nothing is written. -/
  checkOnly : Bool
  paths : List Path := []
  config : Option Path := none
  verbose : Bool := false
  quiet : Bool := false
  outDir : Option Path := none
  inPlace : Bool := false
  deriving Repr

/-- What a command line asks for. -/
inductive Invocation where
  | help
  | version
  | misuse
  | run (command : Command)
  deriving Repr

/-- The names of the options before a command. -/
def generalNames : OptionNames :=
  [("-h", .help), ("--help", .help), ("-V", .version), ("--version", .version)]

/-- The names of the options of every command. -/
def commandNames : OptionNames :=
  [("-h", .help), ("--help", .help), ("--config", .config), ("-v", .verbose),
   ("--verbose", .verbose), ("-q", .quiet), ("--quiet", .quiet)]

/-- The names of the options that say where expanded files go. -/
def destinationNames : OptionNames :=
  [("-o", .outDir), ("--out-dir", .outDir), ("--in-place", .inPlace)]

namespace Command

/-- The command with one option more. Help ends the command line; the two options that say where
files go exclude each other. -/
def apply (c : Command) : Switch × Option String → Except Invocation Command
  | (.help, _) => .error .help
  | (.version, _) => .error .version
  | (.verbose, _) => .ok { c with verbose := true }
  | (.quiet, _) => .ok { c with quiet := true }
  | (.inPlace, _) => if c.outDir.isSome then .error .misuse else .ok { c with inPlace := true }
  | (.config, v) => .ok { c with config := v.map Path.ofText }
  | (.outDir, v) =>
    if c.inPlace then .error .misuse else .ok { c with outDir := v.map Path.ofText }

end Command

/-- The texts of the plain arguments that come next. The first pair of hyphens among them is left
out. -/
def plainTexts : List Argument → List String
  | [] => []
  | .plain s :: rest => s :: plainTexts rest
  | .hyphens :: rest => plainTexts rest
  | _ :: _ => []

/-- Whether an argument is a plain one, as two hyphens count here. -/
def isPlain : Argument → Bool
  | .plain _ => true
  | .hyphens => true
  | _ => false

/-- The command that arguments make of `c`. Plain arguments that stand together are its paths;
`left` says whether something has been left over that the command has no use for. -/
def readCommand (names : OptionNames) (c : Command) (left : Bool) :
    List Argument → Nat → Except Invocation (Command × Bool)
  | [], _ => .ok (c, left)
  | _, 0 => .ok (c, left)
  | args@(.plain _ :: _), fuel + 1 | args@(.hyphens :: _), fuel + 1 =>
    let rest := args.dropWhile isPlain
    match plainTexts args with
    | [] => readCommand names c true rest fuel
    | texts =>
      if c.paths.isEmpty then
        readCommand names { c with paths := texts.map Path.ofText } left rest fuel
      else readCommand names c true rest fuel
  | .unknown :: rest, fuel + 1 => readCommand names c true rest fuel
  | .ambiguous :: _, _ => .error .misuse
  | .option name switch joined :: rest, fuel + 1 => do
    let isShort := !name.startsWith "--"
    let options ← match joined with
      | none => .ok [(switch, none)]
      | some j =>
        match expand names isShort switch j.toList with
        | some options => .ok options
        | none => throw .misuse
    match options.getLast? with
    | some (last, none) =>
      if last.takesValue then
        match rest with
        | .plain v :: rest =>
          let c ← (options.dropLast ++ [(last, some v)]).foldlM Command.apply c
          readCommand names c left rest fuel
        | _ => throw .misuse
      else readCommand names (← options.foldlM Command.apply c) left rest fuel
    | _ => readCommand names (← options.foldlM Command.apply c) left rest fuel

/-- The command of a name. -/
def commandOf? (name : String) : Option (Command × OptionNames) :=
  if name = "transform" then some ({ checkOnly := false }, commandNames ++ destinationNames)
  else if name = "check" then some ({ checkOnly := true }, commandNames)
  else none

/-- What the arguments after the name of a command ask for. `left` says whether something before
the name is left over. -/
def invocationAfter (name : String) (left : Bool) (args : List String) : Invocation :=
  match commandOf? name with
  | none => .misuse
  | some (command, names) =>
    let args := classifyAll names args
    if args.contains .ambiguous then .misuse
    else match readCommand names command left args (args.length + 1) with
      | .error i => i
      | .ok (c, left) => if left || c.paths.isEmpty then .misuse else .run c

/-- What a command line asks for. -/
def invocation (left : Bool) : List String → Invocation
  | [] => .misuse
  | s :: rest =>
    match if s = "--" then .hyphens else classify generalNames s with
    | .plain name => invocationAfter name left rest
    | .hyphens | .ambiguous => .misuse
    | .unknown => invocation true rest
    | .option _ switch none => if switch = .version then .version else .help
    | .option name switch (some joined) =>
      match expand generalNames (!name.startsWith "--") switch joined.toList with
      | some _ => if switch = .version then .version else .help
      | none => .misuse

end CondMarkup.CommandLine
