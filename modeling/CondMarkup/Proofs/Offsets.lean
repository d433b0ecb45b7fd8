import CondMarkup.Proofs.Boundaries

/-!
A table gives for every byte of a text the character that it belongs to, and for the offset after the last
byte the length of the text. Positions read from the table are the ones counted by `charPosition`, also for
a text of ASCII characters, for which no table is needed. Bytes between two offsets can be read exactly if
none of their characters is cut: the first byte of a character never continues another one.
-/

namespace CondMarkup

namespace Utf8

/-! ### First and later bytes -/

/-- A byte that stands within a character and does not begin it. -/
def Continues (b : UInt8) : Prop := 0x80 ≤ b.toNat ∧ b.toNat < 0xC0

theorem continues_continuationByte (k : Nat) : Continues (continuationByte k) := by
  rw [Continues, toNat_continuationByte]
  omega

theorem not_continues_of_le {n : Nat} (h : 0xC0 ≤ n) (h' : n < 0x100) : ¬ Continues n.toUInt8 := by
  rw [Continues, toNat_toUInt8 h']
  omega

/-- The first byte of a character continues none, and every later one does. -/
theorem exists_encodeChar_eq_cons (c : Char) :
    ∃ b rest, encodeChar c = b :: rest ∧ ¬ Continues b ∧ ∀ k ∈ rest, Continues k := by
  have hvalid : c.toNat < 0xD800 ∨ 0xDFFF < c.toNat ∧ c.toNat < 0x110000 := c.valid
  rw [encodeChar_eq]
  split
  · rename_i h
    refine ⟨_, _, rfl, fun hb => ?_, fun k hk => absurd hk List.not_mem_nil⟩
    rw [Continues, toNat_toUInt8 (by omega)] at hb
    omega
  split
  · exact ⟨_, _, rfl, not_continues_of_le (by omega) (by omega),
      by simp [continues_continuationByte]⟩
  split
  · exact ⟨_, _, rfl, not_continues_of_le (by omega) (by omega),
      by simp [continues_continuationByte]⟩
  · exact ⟨_, _, rfl, not_continues_of_le (by omega) (by omega),
      by simp [continues_continuationByte]⟩

/-- Where a byte stands that continues no character, a character begins. -/
theorem exists_encode_of_not_continues {t : Text} {front back : List UInt8} {b : UInt8}
    (h : encode t = front ++ b :: back) (hb : ¬ Continues b) :
    ∃ first last, t = first ++ last ∧ front = encode first := by
  induction t generalizing front with
  | nil => exact absurd h (by simp)
  | cons c rest ih =>
    obtain ⟨head, later, hc, _, hlater⟩ := exists_encodeChar_eq_cons c
    cases front with
    | nil => exact ⟨[], c :: rest, rfl, rfl⟩
    | cons x front =>
      rw [encode_cons, hc, List.cons_append, List.cons_append, List.cons.injEq] at h
      obtain ⟨rfl, h⟩ := h
      rcases List.append_eq_append_iff.mp h with ⟨more, rfl, hrest⟩ | ⟨more, rfl, hmore⟩
      · obtain ⟨first, last, rfl, rfl⟩ := ih hrest
        exact ⟨c :: first, last, rfl, by rw [encode_cons, hc, List.cons_append]⟩
      · cases more with
        | nil =>
          rw [List.append_nil] at hc
          exact ⟨[c], rest, rfl, by rw [encode_cons, encode_nil, List.append_nil, hc]⟩
        | cons y more =>
          -- the byte would be a later one of the character
          rw [List.cons_append, List.cons.injEq] at hmore
          rw [← hmore.1] at hlater
          exact absurd (hlater b (by simp)) hb

/-- A text whose bytes begin with those of another begins with the other. -/
theorem exists_append_of_encode_eq {t u : Text} {back : List UInt8}
    (h : encode t = encode u ++ back) : ∃ last, t = u ++ last ∧ back = encode last := by
  induction u generalizing t with
  | nil => exact ⟨t, rfl, h.symm⟩
  | cons c rest ih =>
    have hread := decode_encode t
    rw [h, encode_cons, List.append_assoc, decode, decodeFrom_encodeChar] at hread
    obtain ⟨others, hothers, ht⟩ := bind_eq_ok_iff.mp hread
    obtain ⟨last, rfl, hback⟩ := ih (encode_of_decodeFrom hothers)
    exact ⟨last, (pure_eq_ok_iff.mp ht).symm, hback⟩

end Utf8

/-! ### The table -/

/-- The character of every byte, counted from `next`, and the number after the last character. -/
def offsetTable (next : Nat) : Text → List Nat
  | [] => [next]
  | c :: rest => List.replicate (Utf8.encodeChar c).length next ++ offsetTable (next + 1) rest

/-- The position of an offset by the table. Offsets outside of it go to the ends of the text. -/
def tablePosition (t : Text) (offset : Int) : Int :=
  if offset ≤ 0 then 0 else ((offsetTable 0 t)[offset.toNat]?).getD t.length

theorem length_offsetTable (t : Text) (next : Nat) :
    (offsetTable next t).length = (Utf8.encode t).length + 1 := by
  induction t generalizing next with
  | nil => rfl
  | cons c rest ih =>
    rw [offsetTable, List.length_append, List.length_replicate, ih, Utf8.encode_cons,
      List.length_append, Nat.add_assoc]

/-- The table counts the characters that end at or before the offset. -/
theorem getElem?_offsetTable {t : Text} {b : Nat} (h : b ≤ (Utf8.encode t).length) (next : Nat) :
    (offsetTable next t)[b]? = some (next + charsBefore t b) := by
  induction t generalizing b next with
  | nil =>
    obtain rfl : b = 0 := Nat.le_zero.mp h
    rfl
  | cons c rest ih =>
    rw [Utf8.encode_cons, List.length_append] at h
    rw [offsetTable, charsBefore]
    by_cases hb : b < (Utf8.encodeChar c).length
    · rw [List.getElem?_append_left (by rwa [List.length_replicate]),
        List.getElem?_replicate_of_lt hb, if_pos hb, Nat.add_zero]
    · rw [List.getElem?_append_right (by rw [List.length_replicate]; omega), List.length_replicate,
        ih (by omega), if_neg hb, Nat.add_assoc, Nat.add_comm 1]

/-- From the last byte on, all characters have ended. -/
theorem charsBefore_of_le {t : Text} {b : Nat} (h : (Utf8.encode t).length ≤ b) :
    charsBefore t b = t.length := by
  induction t generalizing b with
  | nil => rfl
  | cons c rest ih =>
    rw [Utf8.encode_cons, List.length_append] at h
    rw [charsBefore, if_neg (by omega), ih (by omega), List.length_cons]

theorem charsBefore_min (t : Text) (b : Nat) :
    charsBefore t (min b (Utf8.encode t).length) = charsBefore t b := by
  rcases Nat.le_total b (Utf8.encode t).length with h | h
  · rw [Nat.min_eq_left h]
  · rw [Nat.min_eq_right h, charsBefore_of_le h, charsBefore_of_le (Nat.le_refl _)]

theorem tablePosition_eq (t : Text) (offset : Int) :
    tablePosition t offset = charsBefore t offset.toNat := by
  rw [tablePosition]
  by_cases hpos : offset ≤ 0
  · rw [if_pos hpos, Int.toNat_of_nonpos hpos, charsBefore_zero]
    rfl
  rw [if_neg hpos]
  rcases Nat.lt_or_ge (Utf8.encode t).length offset.toNat with h | h
  · rw [List.getElem?_eq_none (by rw [length_offsetTable]; omega), Option.getD_none,
      charsBefore_of_le (Nat.le_of_lt h)]
  · rw [getElem?_offsetTable h, Option.getD_some, Nat.zero_add]

theorem charsBefore_of_ascii {t : Text} (hascii : t.all isAsciiChar = true) {b : Nat}
    (hb : b ≤ t.length) : charsBefore t b = b := by
  rw [← length_encode_of_ascii hascii] at hb
  obtain ⟨front, back, rfl, rfl⟩ := onBoundary_of_ascii hascii hb
  rw [List.all_append, Bool.and_eq_true] at hascii
  rw [charsBefore_length_encode, length_encode_of_ascii hascii.1]

/-- A text has as many bytes as characters exactly if all are ASCII characters. -/
theorem length_encode_eq_length_iff (t : Text) :
    (Utf8.encode t).length = t.length ↔ t.all isAsciiChar = true := by
  refine ⟨fun h => ?_, length_encode_of_ascii⟩
  induction t with
  | nil => rfl
  | cons c rest ih =>
    have hpos := c.utf8Size_pos
    have hle := Utf8.length_le_length_encode rest
    rw [Utf8.encode_cons, List.length_append, Utf8.length_encodeChar, List.length_cons] at h
    have hone : c.utf8Size = 1 := by omega
    rw [List.all_cons, ih (by omega), Bool.and_true, isAsciiChar, decide_eq_true_eq]
    by_contra hmany
    rw [← Utf8.length_encodeChar, Utf8.encodeChar_eq, if_neg hmany] at hone
    split at hone
    · simp at hone
    split at hone <;> simp at hone

/-- The table is used for a text that has more bytes than characters, and for no other. -/
theorem charPosition_eq_tablePosition (t : Text) (offset : Int) :
    charPosition t offset =
      if (Utf8.encode t).length = t.length then offset else tablePosition t offset := by
  rw [charPosition, tablePosition_eq]
  simp only [length_encode_eq_length_iff]

/-- Within the text, the shortcut for ASCII characters gives what the table would. -/
theorem charPosition_eq_tablePosition_of_le {t : Text} {b : Nat} (h : b ≤ (Utf8.encode t).length) :
    charPosition t b = tablePosition t b := by
  rw [charPosition_eq_tablePosition]
  split
  · rename_i hascii
    rw [tablePosition_eq, Int.toNat_natCast,
      charsBefore_of_ascii ((length_encode_eq_length_iff t).mp hascii) (hascii ▸ h)]
  · rfl

/-! ### Offsets and positions -/

section Positions

variable (t : Text)

/-- Cut to the text, the position of an offset is a count of characters. -/
theorem clampPosition_charPosition (b : Nat) :
    clampPosition t.length (charPosition t b) = charsBefore t b := by
  rw [charPosition]
  by_cases hascii : t.all isAsciiChar = true
  · rw [if_pos hascii, clampPosition, if_neg (by omega), Int.toNat_natCast,
      ← charsBefore_of_ascii hascii (Nat.min_le_right b t.length), ← length_encode_of_ascii hascii,
      charsBefore_min]
  · rw [if_neg hascii, Int.toNat_natCast, clampPosition_natCast (charsBefore_le_length t b)]

/-- The characters between the positions of two offsets. -/
theorem window_charPosition (s e : Nat) : window t (charPosition t s) (charPosition t e) =
    (t.drop (charsBefore t s)).take (charsBefore t e - charsBefore t s) := by
  simp only [window, clampPosition_charPosition]

theorem window_charPosition_min (s e : Nat) :
    window t (charPosition t (min s (Utf8.encode t).length : Nat))
      (charPosition t (min e (Utf8.encode t).length : Nat)) =
    window t (charPosition t s) (charPosition t e) := by
  simp only [window_charPosition, charsBefore_min]

theorem clampPosition_natCast_min (length b : Nat) : clampPosition length b = min b length := by
  rw [clampPosition, if_neg (by omega), Int.toNat_natCast]

/-- Only the parts of the offsets within the text matter. -/
theorem sliceBytes_min (s e : Nat) :
    sliceBytes t (min s (Utf8.encode t).length : Nat) (min e (Utf8.encode t).length : Nat) =
      sliceBytes t s e := by
  simp only [sliceBytes, window, clampPosition_natCast_min, Nat.min_assoc, Nat.min_self]

variable {t} {s e : Nat} {u : Text}

/-- No bytes are the empty text. -/
theorem sliceBytes_of_le (h : e ≤ s) : sliceBytes t s e = .ok [] := by
  have hnone : min e (Utf8.encode t).length - min s (Utf8.encode t).length = 0 := by omega
  simp only [sliceBytes, window, clampPosition_natCast_min, hnone, List.take_zero]
  rfl

theorem window_charPosition_of_le (h : e ≤ s) :
    window t (charPosition t s) (charPosition t e) = [] := by
  rw [window_charPosition, Nat.sub_eq_zero_of_le (charsBefore_mono t h), List.take_zero]

/-- Bytes that can be read begin and end between characters. -/
theorem onBoundary_of_sliceBytes (h : sliceBytes t s e = .ok u) (hse : s < e)
    (he : e ≤ (Utf8.encode t).length) : OnBoundary t s ∧ OnBoundary t e := by
  have hbytes : Utf8.encode u = ((Utf8.encode t).drop s).take (e - s) := by
    rw [← window_of_le _ (Nat.le_of_lt hse) he]
    exact Utf8.encode_of_decode h
  have hparts : Utf8.encode t =
      (Utf8.encode t).take s ++ (Utf8.encode u ++ (Utf8.encode t).drop e) := by
    have hlast : ((Utf8.encode t).drop s).drop (e - s) = (Utf8.encode t).drop e := by
      rw [List.drop_drop, Nat.add_sub_cancel' (Nat.le_of_lt hse)]
    rw [hbytes, ← hlast, List.take_append_drop, List.take_append_drop]
  have hlength : (Utf8.encode u).length = e - s := by
    rw [hbytes, List.length_take, List.length_drop]
    omega
  cases u with
  | nil =>
    rw [Utf8.encode_nil, List.length_nil] at hlength
    omega
  | cons c others =>
    obtain ⟨b, later, hc, hb, _⟩ := Utf8.exists_encodeChar_eq_cons c
    obtain ⟨front, back, ht, hfront⟩ := Utf8.exists_encode_of_not_continues (b := b)
      (by rw [hparts, Utf8.encode_cons, hc]; rfl) hb
    rw [hfront] at hparts
    have hstart : s = (Utf8.encode front).length := by
      rw [← hfront, List.length_take]
      omega
    rw [ht, Utf8.encode_append, List.append_cancel_left_eq] at hparts
    obtain ⟨last, hlast, _⟩ := Utf8.exists_append_of_encode_eq hparts
    refine ⟨⟨front, back, ht, hstart⟩, front ++ c :: others, last, ?_, ?_⟩
    · rw [ht, hlast, List.append_assoc]
    · rw [Utf8.encode_append, List.length_append, hlength]
      omega

/-- Bytes are read exactly if there are none or no character is cut, as the characters in between. -/
theorem sliceBytes_eq_ok_iff : sliceBytes t s e = .ok u ↔
    (min e (Utf8.encode t).length ≤ min s (Utf8.encode t).length ∨
      OnBoundary t (min s (Utf8.encode t).length) ∧ OnBoundary t (min e (Utf8.encode t).length)) ∧
    u = window t (charPosition t s) (charPosition t e) := by
  rw [← sliceBytes_min, ← window_charPosition_min]
  rcases Nat.lt_or_ge (min s (Utf8.encode t).length) (min e (Utf8.encode t).length) with hse | hse
  · constructor
    · intro h
      obtain ⟨hs, he⟩ := onBoundary_of_sliceBytes h hse (Nat.min_le_right _ _)
      rw [sliceBytes_of_onBoundary hs he (Nat.le_of_lt hse), Except.ok.injEq] at h
      exact ⟨Or.inr ⟨hs, he⟩, h.symm⟩
    · rintro ⟨h, rfl⟩
      obtain ⟨hs, he⟩ := h.resolve_left (Nat.not_le_of_lt hse)
      exact sliceBytes_of_onBoundary hs he (Nat.le_of_lt hse)
  · rw [sliceBytes_of_le hse, window_charPosition_of_le hse, Except.ok.injEq]
    exact ⟨fun h => ⟨Or.inl hse, h.symm⟩, fun h => h.2.symm⟩

/-- The text in front of a boundary has the bytes in front of it. -/
theorem length_encode_window {b : Nat} (h : OnBoundary t b) :
    (Utf8.encode (window t 0 (charPosition t b))).length = b := by
  obtain ⟨front, back, rfl, rfl⟩ := h
  have hfront : window (front ++ back) 0 (front.length : Int) = front :=
    window_middle [] front back
  rw [charPosition_length_encode, hfront]

end Positions

/-- Byte offsets and character positions of a text say the same. Positions are in the order of the offsets;
the characters in front of a boundary have the bytes in front of it; bytes are read exactly if there are
none or both offsets, cut to the text, are boundaries, and what is read are then the characters between the
positions; and every position is the one of the table, also where offsets are returned as they are. -/
structure OffsetsAgree (t : Text) : Prop where
  monotone : ∀ a b : Int, a ≤ b → charPosition t a ≤ charPosition t b
  before_boundary : ∀ b, OnBoundary t b →
    (Utf8.encode (window t 0 (charPosition t b))).length = b
  read_iff : ∀ s e : Nat, (∃ u, sliceBytes t s e = .ok u) ↔
    min e (Utf8.encode t).length ≤ min s (Utf8.encode t).length ∨
      OnBoundary t (min s (Utf8.encode t).length) ∧ OnBoundary t (min e (Utf8.encode t).length)
  read_eq : ∀ (s e : Nat) (u : Text), sliceBytes t s e = .ok u →
    u = window t (charPosition t s) (charPosition t e)
  table : ∀ b ≤ (Utf8.encode t).length, charPosition t b = tablePosition t b
  shortcut : t.all isAsciiChar = true → ∀ offset, charPosition t offset = offset

/-- Every text has offsets and positions that agree. -/
theorem offsetsAgree (t : Text) : OffsetsAgree t where
  monotone := charPosition_mono t
  before_boundary := fun _ => length_encode_window
  read_iff := by
    intro s e
    constructor
    · rintro ⟨u, hu⟩
      exact (sliceBytes_eq_ok_iff.mp hu).1
    · intro h
      exact ⟨_, sliceBytes_eq_ok_iff.mpr ⟨h, rfl⟩⟩
  read_eq := fun _ _ _ h => (sliceBytes_eq_ok_iff.mp h).2
  table := fun _ => charPosition_eq_tablePosition_of_le
  shortcut := by
    intro hascii offset
    rw [charPosition, if_pos hascii]

end CondMarkup
