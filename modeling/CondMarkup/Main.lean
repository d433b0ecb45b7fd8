import CondMarkup.CommandLine.Standard

/-!
The program. It looks at the files that a command line may be about, makes a tree of them, and
carries out the report of the tool: it writes the files that are new or changed, prints, and ends
with the status of the report.
-/

namespace CondMarkup.Main

open CommandLine

/-- The text of the path to a place. -/
def pathText (place : Location) : String := Path.text { root := "/", parts := place }

/-- What is at a place. A link that leads nowhere counts as nothing. -/
def look (place : Location) : IO (Option FileEntry) := do
  let entry : IO.FS.DirEntry := { root := "", fileName := pathText place }
  try
    match (← entry.path.symlinkMetadata).type with
    | .dir => return some .directory
    | .file => return some (.file (← IO.FS.readBinFile entry.path).toList)
    | .symlink => return some (.link (← IO.FS.realPath entry.path).toString)
    | .other => return none
  catch _ => return none

mutual

/-- Adds to a tree what lies on the way that names lead from a place and, if `deep`, all that lies
below the directory that they lead to. -/
partial def observe (deep : Bool) (tree : FileTree) (start : Location) :
    List String → IO FileTree
  | [] => if deep then observeBelow tree start else return tree
  | ".." :: rest => observe deep tree start.dropLast rest
  | name :: rest => do
    let place := start ++ [name]
    match ← look place with
    | none => return tree
    | some .directory => observe deep (tree.plant place .directory) place rest
    | some (.file bytes) => return tree.plant place (.file bytes)
    | some (.link target) =>
      observe deep (tree.plant place (.link target)) [] ((Path.ofText target).parts ++ rest)

/-- Adds to a tree all that lies below a directory. Links are followed, but not into
directories. -/
partial def observeBelow (tree : FileTree) (place : Location) : IO FileTree := do
  let entry : IO.FS.DirEntry := { root := "", fileName := pathText place }
  let mut tree := tree
  for e in ← entry.path.readDir do
    let below := place ++ [e.fileName]
    tree ← observe (!((← look below) matches some (.link _))) tree place [e.fileName]
  return tree

end

/-- The paths that a command is about. -/
def pathsOf (c : Command) : List Path :=
  { parts := [configFileName] } :: c.config.toList ++ c.outDir.toList ++ c.paths

/-- The tree of the files that a command line is about. -/
def treeOf (args : List String) : IO FileTree := do
  let here := (Path.ofText (← IO.currentDir).toString).parts
  let tree := { ({} : FileTree).plant here .directory with workingDirectory := here }
  match invocation false args with
  | .run c => (pathsOf c).foldlM (fun tree p => observe true tree (tree.startOf p) p.parts) tree
  | _ => return tree

/-- Writes what is new or changed in a tree. -/
def deliver (before after : FileTree) : IO Unit := do
  for (place, entry) in after.entries do
    if before.entryAt? place ≠ some entry then
      match entry with
      | .directory => IO.FS.createDirAll (pathText place)
      | .file bytes => IO.FS.writeBinFile (pathText place) bytes.toByteArray
      | .link _ => pure ()

/-- What is printed where the tool has no exit status. -/
def crashMessage : Crash → String
  | .keyNotText => "a key of the configuration is not a text"
  | .value _ => "a value of the configuration is not what it is said to be"
  | .decode e => e.message
  | .pattern _ => "a pattern of the configuration is malformed"
  | .run (.write e) => e.phrase
  | .run (.print _) => "an expanded file has no text"
  | .run .endless => "an expansion does not come to an end"

/-- Runs the tool. -/
def run (args : List String) : IO UInt32 := do
  let tree ← treeOf args
  let report := report .standard (toolVersion [(toolName, "0.1.0")]) tree args
  deliver tree report.tree
  IO.print report.output
  IO.eprint report.messages
  match report.status with
  | .ok status => return status.toUInt32
  | .error crash =>
    IO.eprintln (crashMessage crash)
    return 1

end CondMarkup.Main

def main (args : List String) : IO UInt32 := CondMarkup.Main.run args
