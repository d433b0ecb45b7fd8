import CondMarkup.Text.Order

/-!
Paths of files. A path is relative, or it starts at the root. Empty parts and parts of a single dot
are left out when a path is read; parts of two dots are kept, for where they lead depends on links.
-/

namespace CondMarkup

structure Path where
  /-- What stands for the root of an absolute path: one slash, or two where two were written. -/
  root : String := ""
  parts : List String
  deriving DecidableEq, Repr

namespace Path

/-- The path as it is written. -/
def ofText (s : String) : Path :=
  let slashes := (s.toList.takeWhile fun c => c = '/').length
  { root := if slashes = 0 then "" else if slashes = 2 then "//" else "/"
    parts := (s.splitOn "/").filter fun p => p ≠ "" ∧ p ≠ "." }

/-- The text of a path. The path without parts is the current directory. -/
def text (p : Path) : String :=
  if p.root = "" ∧ p.parts = [] then "." else p.root ++ "/".intercalate p.parts

def isAbsolute (p : Path) : Bool := p.root ≠ ""

/-- The path `q` as it is found from `p`. -/
def join (p q : Path) : Path := if q.isAbsolute then q else { p with parts := p.parts ++ q.parts }

/-- The directory that the path lies in. -/
def parent (p : Path) : Path := { p with parts := p.parts.dropLast }

/-- The last part of the path. -/
def name (p : Path) : String := p.parts.getLast?.getD ""

/-- The path that leads from `base` to `p`, if `p` lies at or below `base`. -/
def relativeTo? (p base : Path) : Option Path :=
  if p.root = base.root ∧ base.parts.isPrefixOf p.parts then
    some { parts := p.parts.drop base.parts.length }
  else none

/-- The order of paths by their parts, one after another. -/
def partsLe : List String → List String → Bool
  | [], _ => true
  | _ :: _, [] => false
  | a :: as, b :: bs => if a = b then partsLe as bs else textLe a b

/-- The order of paths: by root, then by parts. -/
def le (p q : Path) : Bool :=
  if p.root = q.root then partsLe p.parts q.parts else textLe p.root q.root

@[simp] theorem partsLe_refl (as : List String) : partsLe as as = true := by
  induction as with
  | nil => rfl
  | cons a as ih => simp [partsLe, ih]

theorem relativeTo?_join {base q : Path} (h : q.root = "") :
    (base.join q).relativeTo? base = some q := by
  have hn : q.isAbsolute = false := by simp [isAbsolute, h]
  obtain ⟨r, ps⟩ := q
  simp only at h
  subst h
  simp [relativeTo?, join, hn]

end Path

end CondMarkup
