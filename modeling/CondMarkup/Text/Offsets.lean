import CondMarkup.Text.Utf8

/-!
Byte offsets and character positions of one text. A byte offset belongs to the character that
holds the byte; offsets outside the text go to its ends. In a text of ASCII characters bytes and
characters are the same, and an offset is then returned as it is, inside the text or not.
-/

namespace CondMarkup

/-- A character that UTF-8 writes as one byte. -/
def isAsciiChar (c : Char) : Bool := c.toNat < 0x80

/-- The number of characters of `t` that end at or before byte `offset`. -/
def charsBefore : Text → Nat → Nat
  | [], _ => 0
  | c :: rest, offset =>
    let size := (Utf8.encodeChar c).length
    if offset < size then 0 else charsBefore rest (offset - size) + 1

/-- The position of the character that byte `offset` belongs to. -/
def charPosition (t : Text) (offset : Int) : Int :=
  if t.all isAsciiChar then offset else charsBefore t offset.toNat

/-- The text of the bytes from `start` up to `stop`, if they are whole characters. -/
def sliceBytes (t : Text) (start stop : Int) : Except Utf8.DecodeError Text :=
  Utf8.decode (window (Utf8.encode t) start stop)

@[simp] theorem charsBefore_zero (t : Text) : charsBefore t 0 = 0 := by
  cases t with
  | nil => rfl
  | cons c rest =>
    have h : 0 < (Utf8.encodeChar c).length := by
      unfold Utf8.encodeChar
      dsimp only
      split
      · simp
      · split
        · simp
        · split <;> simp
    simp [charsBefore, h]

theorem charsBefore_le_length (t : Text) (offset : Nat) : charsBefore t offset ≤ t.length := by
  induction t generalizing offset with
  | nil => simp [charsBefore]
  | cons c rest ih =>
    simp only [charsBefore, List.length_cons]
    split
    · omega
    · have := ih (offset - (Utf8.encodeChar c).length)
      omega

end CondMarkup
