import CondMarkup.Text.Lowercase

/-!
The languages of source files, told by the names of the files.
-/

namespace CondMarkup

/-- The languages that source files are written in: with markup or, where `<T>` is a cast,
without. -/
inductive Language where
  | tsx
  | typescript
  deriving DecidableEq, Repr

/-- What follows the last dot of a file name, in lower case; a name without a dot counts as one
that ends in `tsx`. -/
def extensionOf (fileName : String) : String :=
  match (fileName.splitOn ".").reverse with
  | last :: _ :: _ => String.ofList (Lowercase.ofText last.toList)
  | _ => "tsx"

/-- The language of a file by its name. -/
def Language.ofFileName (fileName : String) : Language :=
  if extensionOf fileName = "ts" then .typescript else .tsx

end CondMarkup
