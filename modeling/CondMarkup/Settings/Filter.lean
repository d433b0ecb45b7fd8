import CondMarkup.Files.Path
import CondMarkup.Settings.Config

/-!
The choice of files by their paths: a file is chosen if the patterns of the files to include take
its path and those of the files to exclude, if there are any, do not. What patterns mean is left to a
reader that is given: it makes of the lines of patterns the test of whether they take a path.
-/

namespace CondMarkup

/-- What is wrong with a pattern. -/
inductive PatternError where
  /-- It ends in a backslash, or nothing is left of it. -/
  | malformed
  /-- A range of characters in it ends before it starts. -/
  | backwardsRange
  deriving DecidableEq, Repr

/-- What makes the test of whether patterns take the text of a path, from the lines that the patterns
stand in. -/
abbrev PatternReader := List String → Except PatternError (String → Bool)

structure FileFilter where
  included : String → Bool
  /-- Nothing if no patterns say what to exclude. -/
  excluded : Option (String → Bool)

namespace FileFilter

/-- The filter with the given lines of patterns. -/
def ofLines (read : PatternReader) (included excluded : List String) :
    Except PatternError FileFilter := do
  let takesIncluded ← read included
  if excluded.isEmpty then return { included := takesIncluded, excluded := none }
  else return { included := takesIncluded, excluded := some (← read excluded) }

/-- Whether the filter chooses a path. -/
def matchesPath (f : FileFilter) (p : Path) : Bool :=
  !(f.excluded.any fun takes => takes p.text) && f.included p.text

end FileFilter

/-- The filter of a configuration. -/
def Config.filter (read : PatternReader) (c : Config) : Except PatternError FileFilter :=
  FileFilter.ofLines read c.included c.excluded

end CondMarkup
