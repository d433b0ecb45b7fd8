/-!
Cutting a stretch out of a sequence by two positions that may be any integers. A negative
position counts from the end, a position beyond an end is moved to that end, and a stretch that
would run backwards is empty. For positions within the sequence in the usual order the stretch
is the plain one, as `window_of_le` says.
-/

namespace CondMarkup

/-- A text is the list of its characters. Positions in a text count characters. -/
abbrev Text := List Char

/-- Where a position that may be negative or too large falls in a sequence of `length` entries. -/
def clampPosition (length : Nat) (position : Int) : Nat :=
  if position < 0 then (position + length).toNat else min position.toNat length

/-- The entries from position `start` up to position `stop`. -/
def window {α : Type} (xs : List α) (start stop : Int) : List α :=
  let first := clampPosition xs.length start
  let last := clampPosition xs.length stop
  (xs.drop first).take (last - first)

theorem clampPosition_natCast {length n : Nat} (h : n ≤ length) :
    clampPosition length (n : Int) = n := by
  have hn : ¬ ((n : Int) < 0) := by omega
  simp only [clampPosition, if_neg hn, Int.toNat_natCast]
  omega

/-- Within the sequence and in order, the stretch is the plain one. -/
theorem window_of_le {α : Type} (xs : List α) {a b : Nat} (hab : a ≤ b) (hb : b ≤ xs.length) :
    window xs (a : Int) (b : Int) = (xs.drop a).take (b - a) := by
  simp only [window, clampPosition_natCast (Nat.le_trans hab hb), clampPosition_natCast hb]

theorem window_all {α : Type} (xs : List α) : window xs 0 (xs.length : Int) = xs := by
  have h := window_of_le xs (Nat.zero_le xs.length) (Nat.le_refl _)
  simpa using h

end CondMarkup
