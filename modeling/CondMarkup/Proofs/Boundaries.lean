import CondMarkup.Proofs.Spans
import CondMarkup.Proofs.Utf8

/-!
Byte offsets that fall between two characters. Cut at two of them, a text is in three parts, and the bytes
between the offsets are those of the part in the middle. So these bytes can always be read, and they are
read as the characters between the positions that belong to the offsets.
-/

namespace CondMarkup

/-- The offset falls between two characters of the text, or at an end of it. -/
def OnBoundary (t : Text) (offset : Nat) : Prop :=
  ∃ front back, t = front ++ back ∧ offset = (Utf8.encode front).length

/-- The parts of a text before, between and after two offsets. -/
structure CutInThree (t : Text) (a b : Nat) (front part back : Text) : Prop where
  text_eq : t = front ++ part ++ back
  start_eq : a = (Utf8.encode front).length
  stop_eq : b = (Utf8.encode (front ++ part)).length

theorem Utf8.length_le_length_encode (t : Text) : t.length ≤ (Utf8.encode t).length := by
  induction t with
  | nil => exact Nat.le_refl _
  | cons c rest ih =>
    have hpos := c.utf8Size_pos
    rw [encode_cons, List.length_append, length_encodeChar, List.length_cons]
    omega

/-- The stretch in the middle of a sequence. -/
theorem window_middle {α : Type} (front part back : List α) :
    window (front ++ part ++ back) front.length (front ++ part).length = part := by
  rw [window_of_le _ (by simp) (by simp), List.append_assoc, List.drop_left, List.length_append,
    Nat.add_sub_cancel_left, List.take_left]

section Boundary

variable {t : Text} {a b : Nat}

theorem charsBefore_length_encode (front back : Text) :
    charsBefore (front ++ back) (Utf8.encode front).length = front.length := by
  induction front with
  | nil => exact charsBefore_zero back
  | cons c rest ih =>
    rw [List.cons_append, Utf8.encode_cons, List.length_append, charsBefore]
    rw [if_neg (by omega), Nat.add_sub_cancel_left, ih, List.length_cons]

/-- The characters that end before a boundary have all the bytes in front of it. -/
theorem onBoundary_iff : OnBoundary t a ↔ (Utf8.encode (t.take (charsBefore t a))).length = a := by
  constructor
  · rintro ⟨front, back, rfl, rfl⟩
    rw [charsBefore_length_encode, List.take_left]
  · exact fun h => ⟨_, _, (List.take_append_drop _ t).symm, h.symm⟩

instance : Decidable (OnBoundary t a) := decidable_of_iff _ onBoundary_iff.symm

theorem exists_cutInThree (ha : OnBoundary t a) (hb : OnBoundary t b) (hab : a ≤ b) :
    ∃ front part back, CutInThree t a b front part back := by
  obtain ⟨first, rest, hfirst, rfl⟩ := ha
  obtain ⟨second, back, hsecond, rfl⟩ := hb
  rcases List.append_eq_append_iff.mp (hfirst.symm.trans hsecond) with
    ⟨part, rfl, _⟩ | ⟨part, rfl, _⟩
  · exact ⟨first, part, back, hsecond, rfl, rfl⟩
  · -- the front that is the longer one has no more bytes, so it is no longer
    have hnone : part = [] := by
      have hle := Utf8.length_le_length_encode part
      rw [Utf8.encode_append, List.length_append] at hab
      exact List.eq_nil_of_length_eq_zero (by omega)
    subst hnone
    exact ⟨second, [], back, by rw [List.append_nil, ← hsecond], by rw [List.append_nil],
      by rw [List.append_nil]⟩

/-- Between two characters, the position counts the characters in front. -/
theorem charPosition_length_encode (front back : Text) :
    charPosition (front ++ back) (Utf8.encode front).length = front.length := by
  unfold charPosition
  by_cases hascii : (front ++ back).all isAsciiChar = true
  · rw [if_pos hascii]
    rw [List.all_append, Bool.and_eq_true] at hascii
    rw [length_encode_of_ascii hascii.1]
  · rw [if_neg hascii, Int.toNat_natCast, charsBefore_length_encode]

namespace CutInThree

variable {front part back : Text} (cut : CutInThree t a b front part back)
include cut

theorem charPosition_start : charPosition t a = front.length := by
  rw [cut.text_eq, cut.start_eq, List.append_assoc, charPosition_length_encode]

theorem charPosition_stop : charPosition t b = (front ++ part).length := by
  rw [cut.text_eq, cut.stop_eq, charPosition_length_encode]

theorem window_eq : window t (charPosition t a) (charPosition t b) = part := by
  rw [cut.charPosition_start, cut.charPosition_stop, cut.text_eq, window_middle]

theorem sliceBytes_eq : sliceBytes t a b = .ok part := by
  rw [sliceBytes, cut.text_eq, cut.start_eq, cut.stop_eq, Utf8.encode_append, Utf8.encode_append,
    window_middle, Utf8.decode_encode]

end CutInThree

/-- The bytes between two boundaries are read as the characters between them. -/
theorem sliceBytes_of_onBoundary (ha : OnBoundary t a) (hb : OnBoundary t b) (hab : a ≤ b) :
    sliceBytes t a b = .ok (window t (charPosition t a) (charPosition t b)) := by
  obtain ⟨front, part, back, cut⟩ := exists_cutInThree ha hb hab
  rw [cut.sliceBytes_eq, cut.window_eq]

/-- Between two boundaries there are characters if there are bytes. -/
theorem charPosition_lt_of_onBoundary (ha : OnBoundary t a) (hb : OnBoundary t b) (hab : a < b) :
    charPosition t a < charPosition t b := by
  obtain ⟨front, part, back, cut⟩ := exists_cutInThree ha hb (Nat.le_of_lt hab)
  have hsome : part ≠ [] := by
    rintro rfl
    rw [cut.start_eq, cut.stop_eq, List.append_nil] at hab
    exact Nat.lt_irrefl _ hab
  have hlength := List.length_pos_of_ne_nil hsome
  rw [cut.charPosition_start, cut.charPosition_stop, List.length_append]
  omega

theorem OnBoundary.le (h : OnBoundary t a) : a ≤ (Utf8.encode t).length := by
  obtain ⟨front, back, rfl, rfl⟩ := h
  rw [Utf8.encode_append, List.length_append]
  exact Nat.le_add_right _ _

/-- In a text of ASCII characters every offset is on a boundary. -/
theorem onBoundary_of_ascii (hascii : t.all isAsciiChar = true) (ha : a ≤ (Utf8.encode t).length) :
    OnBoundary t a := by
  rw [length_encode_of_ascii hascii] at ha
  have hfront : (t.take a).all isAsciiChar = true :=
    List.all_eq_true.mpr fun c hc => List.all_eq_true.mp hascii c (List.mem_of_mem_take hc)
  refine ⟨t.take a, t.drop a, (List.take_append_drop a t).symm, ?_⟩
  rw [length_encode_of_ascii hfront, List.length_take, Nat.min_eq_left ha]

end Boundary

end CondMarkup
