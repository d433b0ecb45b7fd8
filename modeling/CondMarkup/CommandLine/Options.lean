import CondMarkup.Text.Digit

/-!
Arguments of a command line, told apart: options, the values of options, and plain arguments.
Options have short and long names. A long name may be shortened as long as it fits one option only,
a value may be joined to a long name by an equals sign and to a short one directly, and short names
of options without values may be joined. After two hyphens on their own all arguments are plain.
-/

namespace CondMarkup.CommandLine

/-- What an option of the tool is for. -/
inductive Switch where
  | help
  | version
  | verbose
  | quiet
  | inPlace
  | config
  | outDir
  deriving DecidableEq, Repr

/-- Whether a value belongs to the option. -/
def Switch.takesValue (s : Switch) : Bool := s = .config || s = .outDir

/-- The names of options. -/
abbrev OptionNames := List (String × Switch)

/-- An argument as the names of the options make it out to be. -/
inductive Argument where
  | plain (text : String)
  /-- Two hyphens on their own. -/
  | hyphens
  /-- An option under one of its names, with the value that is joined to it. -/
  | option (name : String) (switch : Switch) (joined : Option String)
  /-- What looks like an option and is none. -/
  | unknown
  /-- A shortened name that fits several options. -/
  | ambiguous
  deriving DecidableEq, Repr

/-- Whether a text is a negative number, whole or with a point, which does not count as an option. A
line feed at the end makes no difference. -/
def isNegativeNumber (s : String) : Bool :=
  let digits (cs : List Char) : Bool := !cs.isEmpty && cs.all isDecimalDigit
  let cs := s.toList
  match if cs.getLast? = some '\n' then cs.dropLast else cs with
  | '-' :: rest =>
    digits rest || (match rest.dropWhile isDecimalDigit with
      | '.' :: fraction => digits fraction
      | _ => false)
  | _ => false

/-- A text up to its first equals sign and what follows that. -/
def splitEquals (s : String) : String × Option String :=
  let cs := s.toList
  let front := cs.takeWhile fun c => c != '='
  match cs.drop front.length with
  | [] => (s, none)
  | _ :: rest => (String.ofList front, some (String.ofList rest))

/-- The options that an argument may stand for by a shortened name, or by a short name with
something joined to it. -/
def candidates (names : OptionNames) (s : String) : List (String × Switch × Option String) :=
  if s.startsWith "--" then
    let (front, joined) := splitEquals s
    (names.filter fun n => n.1.startsWith front).map fun n => (n.1, n.2, joined)
  else
    let short := String.ofList (s.toList.take 2)
    let joined := String.ofList (s.toList.drop 2)
    names.filterMap fun n =>
      if n.1 = short then some (n.1, n.2, some joined)
      else if n.1.startsWith s then some (n.1, n.2, none)
      else none

/-- What an argument is. -/
def classify (names : OptionNames) (s : String) : Argument :=
  if !s.startsWith "-" then .plain s
  else match names.find? fun n => n.1 = s with
    | some (name, switch) => .option name switch none
    | none =>
      if s = "-" then .plain s
      else
        let (front, joined) := splitEquals s
        match if joined.isSome then names.find? fun n => n.1 = front else none with
        | some (name, switch) => .option name switch joined
        | none =>
          match candidates names s with
          | [(name, switch, joined)] => .option name switch joined
          | _ :: _ :: _ => .ambiguous
          | [] =>
            if isNegativeNumber s || s.toList.contains ' ' then .plain s else .unknown

/-- What the arguments of a command line are. -/
def classifyAll (names : OptionNames) : List String → List Argument
  | [] => []
  | "--" :: rest => .hyphens :: rest.map .plain
  | s :: rest => classify names s :: classifyAll names rest

/-- The options that an option with something joined to it comes to: itself with a value, or short
names in a row, of which the last may have a value. -/
def expand (names : OptionNames) (isShort : Bool) (switch : Switch) :
    List Char → Option (List (Switch × Option String))
  | [] => if switch.takesValue then some [(switch, some "")] else none
  | c :: rest =>
    if switch.takesValue then some [(switch, some (String.ofList (c :: rest)))]
    else if !isShort then none
    else match names.find? fun n => n.1 = String.ofList ['-', c] with
      | none => none
      | some (_, next) =>
        if rest.isEmpty then some [(switch, none), (next, none)]
        else (expand names true next rest).map fun others => (switch, none) :: others

end CondMarkup.CommandLine
