import CondMarkup.Settings.Filter
import CondMarkup.Text.Blank

/-!
Patterns of paths, in the notation that lists of ignored files use. A pattern is read into pieces
that are matched one after another from the start of a path. A pattern that matches a directory
matches all that lies below it. A pattern without a slash, one at its end aside, matches at any
depth.
-/

namespace CondMarkup

/-- A class of characters. -/
inductive CharClass where
  | only (c : Char)
  /-- All characters but the slash. -/
  | inName
  /-- All characters but the line feed. -/
  | inLine
  /-- The characters in one of the ranges, or all others. -/
  | ranges (negated : Bool) (ranges : List (Char × Char))
  deriving DecidableEq, Repr

/-- Whether a class has a character. -/
def CharClass.has (c : CharClass) (x : Char) : Bool :=
  match c with
  | only y => x = y
  | inName => x ≠ '/'
  | inLine => x ≠ '\n'
  | ranges negated rs => negated != rs.any fun r => r.1 ≤ x && x ≤ r.2

/-- Whether no range of a class ends before it starts. -/
def CharClass.isProper : CharClass → Bool
  | ranges _ rs => rs.all fun r => r.1 ≤ r.2
  | _ => true

/-- Whether a text goes on in one line to its end, where a line feed may stand. -/
def isOneLine (t : Text) : Bool :=
  let after := t.dropWhile CharClass.inLine.has
  after = [] || after = ['\n']

/-- A piece of a pattern. -/
inductive Piece where
  | one (c : CharClass)
  /-- Any number of characters of a class. -/
  | many (c : CharClass)
  /-- Any number of directories, each with the slash after it. -/
  | leadingDirs
  /-- Any number of directories, each with the slash before it. -/
  | innerDirs
  /-- The end of a name: the end of the path, or a slash with what follows it in its line. -/
  | nameEnd
  /-- What is left of the path, in one line. -/
  | lineEnd
  deriving DecidableEq, Repr

namespace Piece

def isProper : Piece → Bool
  | one c => c.isProper
  | many c => c.isProper
  | _ => true

/-- Whether `f` holds of what is left after some number of characters of a class. -/
def afterSome (c : CharClass) (f : Text → Bool) : Text → Bool
  | [] => f []
  | x :: t => f (x :: t) || (c.has x && afterSome c f t)

/-- The same after at least one character. -/
def afterMore (c : CharClass) (f : Text → Bool) : Text → Bool
  | [] => false
  | x :: t => c.has x && afterSome c f t

/-- Whether the pieces match a start of the text. -/
def allMatch : List Piece → Text → Bool
  | [], _ => true
  | .one c :: ps, t =>
    match t with
    | [] => false
    | x :: rest => c.has x && allMatch ps rest
  | .many c :: ps, t => afterSome c (allMatch ps) t
  | .leadingDirs :: ps, t =>
    allMatch ps t || afterMore .inLine (fun u => match u with
      | '/' :: rest => allMatch ps rest
      | _ => false) t
  | .innerDirs :: ps, t =>
    allMatch ps t || (match t with
      | '/' :: rest => afterMore .inLine (allMatch ps) rest
      | _ => false)
  | .nameEnd :: ps, t =>
    (t = [] || t = ['\n'] || (t.head? = some '/' && isOneLine t)) && allMatch ps t
  | .lineEnd :: ps, t => isOneLine t && allMatch ps t

end Piece

/-- What a pattern asks of a path. -/
inductive PathTest where
  /-- That it has more than line feeds. -/
  | any
  /-- That it lies in a directory. -/
  | inDirectory
  /-- That the pieces match from its start. -/
  | pieces (ps : List Piece)
  deriving DecidableEq, Repr

/-- Whether no range of characters in the test ends before it starts. -/
def PathTest.isProper : PathTest → Bool
  | pieces ps => ps.all Piece.isProper
  | _ => true

/-- Whether a path passes the test. -/
def PathTest.passes (test : PathTest) (path : Text) : Bool :=
  match test with
  | any => path.any CharClass.inLine.has
  | inDirectory => path.contains '/'
  | pieces ps => Piece.allMatch ps path

/-- A pattern: what it asks of a path, and whether paths that pass are taken or refused. -/
structure Pattern where
  test : PathTest
  negated : Bool := false
  deriving DecidableEq, Repr

namespace Pattern

/-- The ranges between brackets. A hyphen between two characters makes a range of them. -/
def readRanges : Text → List (Char × Char)
  | a :: '-' :: b :: rest => (a, b) :: readRanges rest
  | a :: rest => (a, a) :: readRanges rest
  | [] => []

/-- The class that brackets stand for, from after the opening one, and what follows; nothing if
they are not closed. A closing bracket that comes first does not close them. -/
def readBrackets (t : Text) : Option (CharClass × Text) :=
  let (negated, t) := match t with
    | '!' :: rest => (true, rest)
    | '^' :: rest => (true, rest)
    | _ => (false, t)
  let (first, t) := match t with
    | ']' :: rest => ([']'], rest)
    | _ => ([], t)
  let inner := first ++ t.takeWhile fun c => c != ']'
  match t.dropWhile fun c => c != ']' with
  | [] => none
  | _ :: rest => some (.ranges negated (readRanges inner), rest)

/-- The pieces of one name of a pattern; `none` for a name that is malformed. -/
def readName (t : Text) : Nat → Option (List Piece)
  | 0 => some []
  | fuel + 1 =>
    match t with
    | [] => some []
    | ['\\'] => none
    | '\\' :: c :: rest => do return .one (.only c) :: (← readName rest fuel)
    | '*' :: rest => do return .many .inName :: (← readName rest fuel)
    | '?' :: rest => do return .one .inName :: (← readName rest fuel)
    | '[' :: rest =>
      match readBrackets rest with
      | none => do return .one (.only '[') :: (← readName rest fuel)
      | some (c, rest) => do return .one c :: (← readName rest fuel)
    | c :: rest => do return .one (.only c) :: (← readName rest fuel)

/-- The pieces of the names of a pattern. `slash` says whether a slash stands before the next
name, and `first` whether it is the first. -/
def readNames (first slash : Bool) : List Text → Option (List Piece)
  | [] => some []
  | name :: rest => do
    let before : List Piece := if slash then [.one (.only '/')] else []
    let isLast := rest.isEmpty
    if name = ['*', '*'] then
      if first then return .leadingDirs :: (← readNames false false rest)
      else if isLast then return [.one (.only '/'), .lineEnd]
      else return .innerDirs :: (← readNames false true rest)
    else
      let pieces ← if name = ['*'] then some [.one .inName, .many .inName]
        else readName name name.length
      let after : List Piece := if isLast then [.nameEnd] else []
      return before ++ pieces ++ after ++ (← readNames false true rest)

/-- The names between the slashes of a pattern, brought into a form in which a name that may stand
at any depth has `**` before it, and a pattern for directories has `**` at its end. -/
def normalNames (names : List Text) : List Text :=
  let names := match names with
    | [] :: rest => rest
    | [name] => if name = ['*', '*'] then [name] else [['*', '*'], name]
    | [name, []] => if name = ['*', '*'] then [name, []] else [['*', '*'], name, []]
    | _ => names
  let names := match names.getLast? with
    | some [] => names.dropLast ++ [['*', '*']]
    | _ => names
  collapse names
where
  /-- Of several `**` in a row, one is kept. -/
  collapse : List Text → List Text
    | a :: b :: rest =>
      if a = ['*', '*'] ∧ b = ['*', '*'] then collapse (b :: rest) else a :: collapse (b :: rest)
    | names => names

/-- The parts of a text between slashes. -/
def splitSlashes : Text → List Text
  | [] => [[]]
  | '/' :: rest => [] :: splitSlashes rest
  | c :: rest =>
    match splitSlashes rest with
    | first :: others => (c :: first) :: others
    | [] => [[c]]

/-- What a pattern without its sign of negation asks; `none` for a malformed pattern. -/
def readTest (t : Text) : Option PathTest :=
  let isDir := t.getLast? = some '/'
  let any : Text := ['*', '*']
  match normalNames (splitSlashes t) with
  | [] => none
  | [name] =>
    if name = any then some (if isDir then .inDirectory else .any)
    else (readNames true false [name]).map .pieces
  | names =>
    if names = [any, ['*'], any] then some .inDirectory
    else if names = [any, ['*']] then some .any
    else (readNames true false names).map .pieces

/-- The pattern with the given text, its sign of negation left out. -/
def read (negated : Bool) (t : Text) : Except PatternError Pattern :=
  match readTest t with
  | none => .error .malformed
  | some test => if test.isProper then .ok { test, negated } else .error .backwardsRange

/-- The pattern in a line: nothing for a blank line or a remark. -/
def ofLine (s : String) : Except PatternError (Option Pattern) :=
  let t := s.toList
  let t := if [' ', '\\'].isPrefixOf t.reverse then t else trimEnd t
  match t with
  | [] => .ok none
  | '#' :: _ => .ok none
  | ['/'] => .ok none
  | '!' :: rest => (read true rest).map some
  | _ => (read false t).map some

end Pattern

/-- Whether a list of patterns takes a path: the last of those that it passes decides. -/
def takes (patterns : List Pattern) (path : Text) : Bool :=
  match patterns.reverse.find? fun p => p.test.passes path with
  | some p => !p.negated
  | none => false

/-- Reads the patterns in lines, all of which must be well-formed. Paths are matched from their first
name on. -/
def Pattern.readLines : PatternReader := fun lines => do
  let patterns := (← lines.mapM ofLine).filterMap id
  return fun path =>
    match path.toList with
    | '/' :: rest => takes patterns rest
    | t => takes patterns t

end CondMarkup
