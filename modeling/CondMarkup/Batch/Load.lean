import CondMarkup.Files.Tree
import CondMarkup.Settings.Config
import CondMarkup.Text.Lines

/-!
Reading texts and the configuration from a tree of files. The configuration is in a file that the
user names, which must be there, or in the file of a fixed name in the project's root, if there is
one.
-/

namespace CondMarkup

/-- Why a text cannot be read from a file. -/
inductive ReadError where
  | file (error : FileError) (path : String)
  | decode (error : Utf8.DecodeError)
  deriving DecidableEq, Repr

def ReadError.message : ReadError → String
  | file error path => error.message path
  | decode error => error.message

/-- The name of the configuration file in the root of a project. -/
def configFileName : String := "jsxcond.yaml"

namespace FileTree

/-- The text of a file, with all line ends made line feeds. -/
def readText (tree : FileTree) (p : Path) : Except ReadError Text := do
  let bytes ← (tree.read p).mapError fun e => .file e p.text
  return unifyLineEnds (← (Utf8.decode bytes).mapError .decode)

/-- The configuration in a file, or the default one if no file is there. -/
def configAt (tree : FileTree) (read : DocumentReader) (p : Path) : Except LoadError Config :=
  if tree.isFile p then
    match tree.readText p with
    | .ok t => Config.ofText read p.text t
    | .error (.decode e) => .error (.decode e)
    | .error (.file _ _) => .error (.config (.fileNotFound p.text))
  else .ok {}

/-- The configuration of the project at `root`, or the one in the file that is named. -/
def loadConfig (tree : FileTree) (read : DocumentReader) (root : Path) (named : Option Path) :
    Except LoadError Config :=
  match named with
  | some p =>
    if tree.isFile p then tree.configAt read p else .error (.config (.fileNotFound p.text))
  | none => tree.configAt read (root.join { parts := [configFileName] })

end FileTree

end CondMarkup
