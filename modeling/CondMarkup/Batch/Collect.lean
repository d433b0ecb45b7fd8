import CondMarkup.Files.Tree
import CondMarkup.Settings.Filter

/-!
From the paths that a user names to the files that are expanded. A file that is named is always
taken. A directory stands for the files below it that the filter of the configuration chooses by
their paths from the project's root, in the order of their paths.
-/

namespace CondMarkup

/-- Why no files are collected. -/
inductive CollectError where
  | config (error : ConfigError)
  | pattern (error : PatternError)
  deriving DecidableEq, Repr

namespace FileTree

/-- The paths of all that lies below a directory, as found from the path `p` that leads to it. -/
def pathsBelow (tree : FileTree) (p : Path) : List Path :=
  match tree.find p with
  | .ok (place, some .directory) =>
    ((tree.below place).map fun l => p.join { parts := l.drop place.length }).mergeSort Path.le
  | _ => []

/-- The path by which a file below the directory `p` is filtered: from the root of the project to
where the file is in the end, or from `p` if that is not within the project. -/
def filteredPath (tree : FileTree) (root p file : Path) : Path :=
  ((tree.resolve file).relativeTo? (tree.resolve root)).getD
    ((file.relativeTo? p).getD file)

/-- The files that a filter chooses below a directory. -/
def chosenBelow (tree : FileTree) (filter : FileFilter) (root p : Path) : List Path :=
  (tree.pathsBelow p).filter fun file =>
    tree.isFile file && filter.matchesPath (tree.filteredPath root p file)

/-- The files that a named path stands for. -/
def filesAt (tree : FileTree) (filter : FileFilter) (root p : Path) :
    Except CollectError (List Path) :=
  if tree.isFile p then .ok [p]
  else if tree.isDirectory p then .ok (tree.chosenBelow filter root p)
  else .error (.config (.pathNotFound p.text))

/-- The files that all named paths stand for. -/
def collect (tree : FileTree) (read : PatternReader) (config : Config) (root : Path)
    (paths : List Path) : Except CollectError (List Path) :=
  match config.filter read with
  | .error e => .error (.pattern e)
  | .ok filter => do return (← paths.mapM fun p => tree.filesAt filter root p).flatten

end FileTree

end CondMarkup
