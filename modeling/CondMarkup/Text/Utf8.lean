import CondMarkup.Text.Window

/-!
UTF-8: the bytes of a text, and the text of a sequence of bytes. Decoding reads one character at
a time and says, when it fails, which bytes are at fault and in which of three ways: a byte that
starts no character, a byte that cannot continue the character begun, or an end in the middle of
a character. Surrogates, overlong forms and code points above the last one are refused at the
byte that shows them.
-/

namespace CondMarkup.Utf8

/-- What is wrong with a sequence of bytes that is not UTF-8. -/
inductive Fault where
  /-- A byte that no character starts with. -/
  | start
  /-- A byte that cannot follow the ones before it. -/
  | continuation
  /-- The bytes end within a character. -/
  | truncated
  deriving DecidableEq, Repr

/-- The failure to decode: the fault, the first byte at fault, where it stands, and how many bytes
of the character were read before the fault showed. -/
structure DecodeError where
  fault : Fault
  byte : UInt8
  position : Nat
  count : Nat
  deriving DecidableEq, Repr

def Fault.phrase : Fault → String
  | .start => "invalid start byte"
  | .continuation => "invalid continuation byte"
  | .truncated => "unexpected end of data"

/-- A byte as two lower-case hexadecimal digits. -/
def hexByte (b : UInt8) : String :=
  String.ofList [Nat.digitChar (b.toNat / 16), Nat.digitChar (b.toNat % 16)]

/-- The wording of a failure. A single byte is quoted, several are given by their positions. -/
def DecodeError.message (e : DecodeError) : String :=
  let subject :=
    if e.count ≤ 1 then s!"byte 0x{hexByte e.byte} in position {e.position}"
    else s!"bytes in position {e.position}-{e.position + e.count - 1}"
  s!"'utf-8' codec can't decode {subject}: {e.fault.phrase}"

/-- The bytes of one character. -/
def encodeChar (c : Char) : List UInt8 :=
  let n := c.toNat
  let tail (k : Nat) : UInt8 := (0x80 + k % 64).toUInt8
  if n < 0x80 then [n.toUInt8]
  else if n < 0x800 then [(0xC0 + n / 64).toUInt8, tail n]
  else if n < 0x10000 then [(0xE0 + n / 4096).toUInt8, tail (n / 64), tail n]
  else [(0xF0 + n / 262144).toUInt8, tail (n / 4096), tail (n / 64), tail n]

/-- The bytes of a text. -/
def encode (t : Text) : List UInt8 := t.flatMap encodeChar

/-- What the first byte of a character announces: how many bytes follow, the bits it holds itself,
and the least and the greatest byte that may come next. -/
structure Lead where
  owed : Nat
  bits : Nat
  low : UInt8
  high : UInt8

/-- Reads the first byte of a character. Where the second byte is restricted, the restriction keeps
out overlong forms, surrogates and code points above the last one. -/
def lead? (b : UInt8) : Option Lead :=
  let n := b.toNat
  if n < 0x80 then some ⟨0, n, 0x80, 0xBF⟩
  else if n < 0xC2 then none
  else if n < 0xE0 then some ⟨1, n - 0xC0, 0x80, 0xBF⟩
  else if n = 0xE0 then some ⟨2, 0, 0xA0, 0xBF⟩
  else if n = 0xED then some ⟨2, 13, 0x80, 0x9F⟩
  else if n < 0xF0 then some ⟨2, n - 0xE0, 0x80, 0xBF⟩
  else if n = 0xF0 then some ⟨3, 0, 0x90, 0xBF⟩
  else if n < 0xF4 then some ⟨3, n - 0xF0, 0x80, 0xBF⟩
  else if n = 0xF4 then some ⟨3, 4, 0x80, 0x8F⟩
  else none

/-- Where a decoder stands within a character: the first byte and its position, how many bytes have
been read and are still owed, the bits so far, and the range of the next byte. -/
structure Partial where
  first : UInt8
  position : Nat
  count : Nat
  owed : Nat
  bits : Nat
  low : UInt8
  high : UInt8

/-- Reads bytes from position `at`, either between characters (`none`) or within one. -/
def decodeFrom (position : Nat) : Option Partial → List UInt8 → Except DecodeError Text
  | none, [] => .ok []
  | some p, [] => .error ⟨.truncated, p.first, p.position, p.count⟩
  | none, b :: rest =>
    match lead? b with
    | none => .error ⟨.start, b, position, 1⟩
    | some ⟨0, bits, _, _⟩ => do
      let t ← decodeFrom (position + 1) none rest
      return Char.ofNat bits :: t
    | some ⟨owed + 1, bits, low, high⟩ =>
      decodeFrom (position + 1) (some ⟨b, position, 1, owed + 1, bits, low, high⟩) rest
  | some p, b :: rest =>
    if p.low ≤ b ∧ b ≤ p.high then
      let bits := p.bits * 64 + (b.toNat - 0x80)
      if p.owed ≤ 1 then do
        let t ← decodeFrom (position + 1) none rest
        return Char.ofNat bits :: t
      else
        decodeFrom (position + 1)
          (some ⟨p.first, p.position, p.count + 1, p.owed - 1, bits, 0x80, 0xBF⟩) rest
    else .error ⟨.continuation, p.first, p.position, p.count⟩

/-- The text that a sequence of bytes encodes. -/
def decode (bytes : List UInt8) : Except DecodeError Text := decodeFrom 0 none bytes

@[simp] theorem encode_nil : encode [] = [] := rfl

@[simp] theorem encode_cons (c : Char) (t : Text) : encode (c :: t) = encodeChar c ++ encode t := by
  simp [encode]

@[simp] theorem encode_append (s t : Text) : encode (s ++ t) = encode s ++ encode t := by
  simp [encode]

end CondMarkup.Utf8
