import CondMarkup.Files.Path
import CondMarkup.Text.Quoted

/-!
A tree of files as a value: what is at each place, from the root on. A place is given by the names
that lead to it, none of them a link. A path is followed from a place, through links, to the place
that it leads to. Reading and writing follow the path; writing yields a new tree.
-/

namespace CondMarkup

/-- What may be at a place. -/
inductive FileEntry where
  | file (bytes : List UInt8)
  | directory
  /-- A link to where a path leads from the directory of the link. -/
  | link (target : String)
  deriving DecidableEq, Repr

/-- The names that lead to a place from the root. -/
abbrev Location := List String

/-- Why a path cannot be used as it should be. -/
inductive FileError where
  | notFound
  | alreadyExists
  | notADirectory
  | isADirectory
  | tooManyLinks
  deriving DecidableEq, Repr

namespace FileError

def number : FileError → Nat
  | notFound => 2
  | alreadyExists => 17
  | notADirectory => 20
  | isADirectory => 21
  | tooManyLinks => 40

def phrase : FileError → String
  | notFound => "No such file or directory"
  | alreadyExists => "File exists"
  | notADirectory => "Not a directory"
  | isADirectory => "Is a directory"
  | tooManyLinks => "Too many levels of symbolic links"

/-- The wording of an error that was met at a path. -/
def message (e : FileError) (path : String) : String :=
  s!"[Errno {e.number}] {e.phrase}: {quoted path}"

end FileError

/-- A tree of files, together with the place that relative paths start from. -/
structure FileTree where
  entries : List (Location × FileEntry) := []
  workingDirectory : Location := []

namespace FileTree

/-- What is at a place. The root is a directory. -/
def entryAt? (tree : FileTree) (place : Location) : Option FileEntry :=
  if place = [] then some .directory
  else (tree.entries.find? fun e => e.1 = place).map Prod.snd

/-- Puts an entry at a place, for the one that is there. -/
def put (tree : FileTree) (place : Location) (entry : FileEntry) : FileTree :=
  if tree.entries.any fun e => e.1 = place then
    { tree with
      entries := tree.entries.map fun e => if e.1 = place then (place, entry) else e }
  else { tree with entries := tree.entries ++ [(place, entry)] }

/-- Puts directories on the way to a place, from `above` on, wherever nothing is there, and an entry
at the place. -/
def plantFrom (tree : FileTree) (above : Location) (entry : FileEntry) : Location → FileTree
  | [] => tree.put above entry
  | name :: rest =>
    let tree := if (tree.entryAt? above).isNone then tree.put above .directory else tree
    tree.plantFrom (above ++ [name]) entry rest

/-- Puts an entry at a place, and directories on the way to it. -/
def plant (tree : FileTree) (place : Location) (entry : FileEntry) : FileTree :=
  tree.plantFrom [] entry place

/-- The number of links that are followed on the way along a path. -/
def linkLimit : Nat := 40

/-- Follows names from a directory. The answer is the place that they lead to and what is there,
which may be nothing if the place lies in a directory. -/
def follow (tree : FileTree) (links : Nat) (start : Location) :
    List String → Except FileError (Location × Option FileEntry)
  | [] => .ok (start, tree.entryAt? start)
  | name :: rest =>
    if name = ".." then tree.follow links start.dropLast rest
    else
      let place := start ++ [name]
      match tree.entryAt? place with
      | none => if rest = [] then .ok (place, none) else .error .notFound
      | some (.file bytes) =>
        if rest = [] then .ok (place, some (.file bytes)) else .error .notADirectory
      | some .directory => tree.follow links place rest
      | some (.link target) =>
        match links with
        | 0 => .error .tooManyLinks
        | links + 1 =>
          let t := Path.ofText target
          tree.follow links (if t.isAbsolute then [] else start) (t.parts ++ rest)
termination_by names => (links, names.length)

/-- The place that a path starts from. -/
def startOf (tree : FileTree) (p : Path) : Location :=
  if p.isAbsolute then [] else tree.workingDirectory

/-- The place that a path leads to and what is there. -/
def find (tree : FileTree) (p : Path) : Except FileError (Location × Option FileEntry) :=
  tree.follow linkLimit (tree.startOf p) p.parts

def isFile (tree : FileTree) (p : Path) : Bool :=
  match tree.find p with
  | .ok (_, some (.file _)) => true
  | _ => false

def isDirectory (tree : FileTree) (p : Path) : Bool :=
  match tree.find p with
  | .ok (_, some .directory) => true
  | _ => false

/-- The place that names lead to from a place, links followed where there are any, whether or not
anything is there. -/
def resolveNames (tree : FileTree) (links : Nat) (start : Location) : List String → Location
  | [] => start
  | name :: rest =>
    if name = ".." then tree.resolveNames links start.dropLast rest
    else
      let place := start ++ [name]
      match tree.entryAt? place with
      | some (.link target) =>
        match links with
        | 0 => place ++ rest
        | links + 1 =>
          let t := Path.ofText target
          tree.resolveNames links (if t.isAbsolute then [] else start) (t.parts ++ rest)
      | _ => tree.resolveNames links place rest
termination_by names => (links, names.length)

/-- The absolute path without links to where a path leads. -/
def resolve (tree : FileTree) (p : Path) : Path :=
  { root := "/", parts := tree.resolveNames linkLimit (tree.startOf p) p.parts }

/-- The bytes of the file at a path. -/
def read (tree : FileTree) (p : Path) : Except FileError (List UInt8) := do
  match ← tree.find p with
  | (_, some (.file bytes)) => return bytes
  | (_, some .directory) => throw .isADirectory
  | (_, _) => throw .notFound

/-- The tree after the file at a path is written. -/
def write (tree : FileTree) (p : Path) (bytes : List UInt8) : Except FileError FileTree := do
  match ← tree.find p with
  | (_, some .directory) => throw .isADirectory
  | (place, _) => return tree.put place (.file bytes)

/-- The tree after a directory is made at a path, which must not have been there. -/
def makeDirectory (tree : FileTree) (p : Path) : Except FileError FileTree := do
  match p.parts.getLast? with
  | none => throw .alreadyExists
  | some name =>
    match ← tree.find p.parent with
    | (_, none) => throw .notFound
    | (place, some .directory) =>
      if name = ".." ∨ (tree.entryAt? (place ++ [name])).isSome then throw .alreadyExists
      else return tree.put (place ++ [name]) .directory
    | (_, some _) => throw .notADirectory

/-- The outcome of making a directory, which may have been there already. -/
def orExisting (tree : FileTree) (p : Path) : Except FileError FileTree → Except FileError FileTree
  | .ok made => .ok made
  | .error e => if tree.isDirectory p then .ok tree else .error e

/-- The tree after the directory at a path is made if it is missing, and of those above it up to
`depth` that are missing. -/
def makeDirectories (tree : FileTree) (p : Path) : Nat → Except FileError FileTree
  | 0 => tree.orExisting p (tree.makeDirectory p)
  | depth + 1 =>
    match tree.makeDirectory p with
    | .error .notFound => do
      let tree ← tree.makeDirectories p.parent depth
      tree.orExisting p (tree.makeDirectory p)
    | made => tree.orExisting p made

/-- The places below a directory. -/
def below (tree : FileTree) (place : Location) : List Location :=
  (tree.entries.map Prod.fst).filter fun l => place.isPrefixOf l && l ≠ place

/-- The regular files of the tree with their bytes. -/
def files (tree : FileTree) : List (Location × List UInt8) :=
  tree.entries.filterMap fun e =>
    match e.2 with
    | .file bytes => some (e.1, bytes)
    | _ => none

theorem find?_eq_some_of_any {es : List (Location × FileEntry)} {place : Location}
    {entry : FileEntry} (h : es.any (fun e => e.1 = place) = true) :
    ((es.map fun e => if e.1 = place then (place, entry) else e).find? fun e => e.1 = place)
      = some (place, entry) := by
  induction es with
  | nil => simp at h
  | cons x xs ih =>
    by_cases hx : x.1 = place
    · simp [hx]
    · have h' : xs.any (fun e => e.1 = place) = true := by simpa [hx] using h
      simpa [hx] using ih h'

theorem find?_map_of_ne {es : List (Location × FileEntry)} {place other : Location}
    {entry : FileEntry} (h : place ≠ other) :
    ((es.map fun e => if e.1 = place then (place, entry) else e).find? fun e => e.1 = other)
      = es.find? fun e => e.1 = other := by
  induction es with
  | nil => rfl
  | cons x xs ih =>
    by_cases hx : x.1 = place
    · have hne : x.1 ≠ other := fun e => h (hx.symm.trans e)
      simpa [hx, h] using ih
    · by_cases ho : x.1 = other
      · have hp : ¬ other = place := fun e => h e.symm
        simp [ho, hp]
      · simpa [hx, ho] using ih

/-- What was put at a place is there. -/
theorem entryAt?_put_self (tree : FileTree) {place : Location} (entry : FileEntry)
    (h : place ≠ []) : (tree.put place entry).entryAt? place = some entry := by
  simp only [entryAt?, if_neg h, put]
  split
  · rename_i hany
    simp [find?_eq_some_of_any hany]
  · rename_i hany
    have hnone : tree.entries.find? (fun e => decide (e.1 = place)) = none := by
      rw [List.find?_eq_none]
      intro x hx hxp
      exact hany (List.any_eq_true.2 ⟨x, hx, hxp⟩)
    simp [List.find?_append, hnone]

/-- What is at other places stays as it is. -/
theorem entryAt?_put_of_ne (tree : FileTree) {place other : Location} (entry : FileEntry)
    (h : other ≠ place) : (tree.put place entry).entryAt? other = tree.entryAt? other := by
  have hne : place ≠ other := fun e => h e.symm
  simp only [entryAt?, put]
  split
  · rfl
  · split
    · rw [find?_map_of_ne hne]
    · simp [List.find?_append, hne]

end FileTree

end CondMarkup
