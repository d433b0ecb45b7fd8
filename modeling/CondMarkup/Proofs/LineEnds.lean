import CondMarkup.Text.Lines
import CondMarkup.Proofs.Splice
import CondMarkup.Proofs.Utf8

/-!
The bytes of a text from before its line ends were unified. Every character that is read belongs to a
stretch of the bytes, and a stretch in which no carriage return stands is the characters read from it. So
a splice of the characters is one of the bytes if no carriage return is copied, and if one is, then the
splice is no splice of the bytes at all, whatever is put in.
-/

namespace CondMarkup

/-- The byte that ends lines with or without a line feed after it. -/
def carriageReturn : UInt8 := '\r'.toNat.toUInt8

theorem carriageReturn_mem_encode_iff {t : Text} : carriageReturn ∈ Utf8.encode t ↔ '\r' ∈ t :=
  Utf8.mem_encode_iff (by decide)

/-! ### Where characters were read -/

/-- The byte that the character at a position was read from. A carriage return and a line feed are read
as one character. -/
def inputOffset : Text → Nat → Nat
  | _, 0 => 0
  | [], _ + 1 => 0
  | '\r' :: '\n' :: rest, i + 1 => 2 + inputOffset rest i
  | c :: rest, i + 1 => c.utf8Size + inputOffset rest i

/-- The bytes that the characters between two positions were read from. -/
def byteRange (raw : Text) (span : Int × Int) : Nat × Nat :=
  (inputOffset raw span.1.toNat, inputOffset raw span.2.toNat)

/-- The parts of a text in front of a position and from there on. -/
structure SplitAt (raw : Text) (i : Nat) (front back : Text) : Prop where
  raw_eq : raw = front ++ back
  offset_eq : inputOffset raw i = (Utf8.encode front).length
  front_eq : unifyLineEnds front = (unifyLineEnds raw).take i
  back_eq : unifyLineEnds back = (unifyLineEnds raw).drop i
  offset_add : ∀ k, inputOffset raw (i + k) = inputOffset raw i + inputOffset back k

section Split

variable {raw back : Text} {i j : Nat}

theorem unifyLineEnds_cons {c : Char} (h : ∀ rest, c = '\r' → back ≠ '\n' :: rest) :
    unifyLineEnds (c :: back) = (if c = '\r' then '\n' else c) :: unifyLineEnds back := by
  rw [unifyLineEnds]
  exact fun rest hc => h rest hc

theorem exists_splitAt (h : i ≤ (unifyLineEnds raw).length) :
    ∃ front back, SplitAt raw i front back := by
  fun_induction inputOffset raw i with
  | case1 raw => exact ⟨[], raw, rfl, by rw [inputOffset]; rfl, rfl, rfl, by simp [inputOffset]⟩
  | case2 i => simp [unifyLineEnds] at h
  | case3 rest i ih =>
    rw [unifyLineEnds, List.length_cons] at h
    obtain ⟨front, back, split⟩ := ih (Nat.le_of_succ_le_succ h)
    refine ⟨'\r' :: '\n' :: front, back, ?_, ?_, ?_, ?_, fun k => ?_⟩
    · rw [split.raw_eq]
      rfl
    · rw [inputOffset, split.offset_eq]
      simp [Utf8.length_encodeChar, Char.utf8Size]
      omega
    · rw [unifyLineEnds, unifyLineEnds, split.front_eq, List.take_succ_cons]
    · rw [unifyLineEnds, split.back_eq, List.drop_succ_cons]
    · rw [Nat.succ_add, inputOffset, inputOffset, split.offset_add, Nat.add_assoc]
  | case4 c rest i hpair ih =>
    rw [unifyLineEnds_cons hpair, List.length_cons] at h
    obtain ⟨front, back, split⟩ := ih (Nat.le_of_succ_le_succ h)
    -- the line feed of a pair is not in front of the position either
    have hfront : ∀ tail, c = '\r' → front ≠ '\n' :: tail := by
      rintro tail hc rfl
      exact hpair (tail ++ back) hc (by rw [split.raw_eq]; rfl)
    have hoffset : ∀ k, inputOffset (c :: rest) (k + 1) = c.utf8Size + inputOffset rest k := by
      intro k
      rw [inputOffset]
      exact fun tail hc => hpair tail hc
    refine ⟨c :: front, back, ?_, ?_, ?_, ?_, fun k => ?_⟩
    · rw [split.raw_eq]
      rfl
    · rw [hoffset, split.offset_eq, Utf8.encode_cons, List.length_append, Utf8.length_encodeChar]
    · rw [unifyLineEnds_cons hfront, unifyLineEnds_cons hpair, split.front_eq, List.take_succ_cons]
    · rw [unifyLineEnds_cons hpair, split.back_eq, List.drop_succ_cons]
    · rw [Nat.succ_add, hoffset, hoffset, split.offset_add, Nat.add_assoc]

/-- From a position on, the bytes are those of a text that is read as the rest. -/
theorem exists_rest (h : i ≤ (unifyLineEnds raw).length) : ∃ part,
    (Utf8.encode raw).drop (inputOffset raw i) = Utf8.encode part ∧
      unifyLineEnds part = (unifyLineEnds raw).drop i := by
  obtain ⟨front, back, split⟩ := exists_splitAt h
  refine ⟨back, ?_, split.back_eq⟩
  rw [split.offset_eq, split.raw_eq, Utf8.encode_append, List.drop_left]

/-- Between two positions, the bytes are those of a text that is read as the stretch. -/
theorem exists_stretch (hij : i ≤ j) (hj : j ≤ (unifyLineEnds raw).length) : ∃ part,
    ((Utf8.encode raw).drop (inputOffset raw i)).take (inputOffset raw j - inputOffset raw i) =
        Utf8.encode part ∧
      unifyLineEnds part = ((unifyLineEnds raw).drop i).take (j - i) := by
  obtain ⟨front, back, split⟩ := exists_splitAt (Nat.le_trans hij hj)
  have hback : j - i ≤ (unifyLineEnds back).length := by
    rw [split.back_eq, List.length_drop]
    omega
  obtain ⟨part, rest, inner⟩ := exists_splitAt hback
  have hoffset : inputOffset raw j - inputOffset raw i = (Utf8.encode part).length := by
    have hadd := split.offset_add (j - i)
    rw [Nat.add_sub_cancel' hij, inner.offset_eq] at hadd
    omega
  refine ⟨part, ?_, by rw [inner.front_eq, split.back_eq]⟩
  rw [hoffset, split.offset_eq, split.raw_eq, Utf8.encode_append, List.drop_left, inner.raw_eq,
    Utf8.encode_append, List.take_left]

/-- Without carriage returns, the bytes that were read as a text are the bytes of the text. -/
theorem encode_eq_of_not_mem {t : Text} (h : unifyLineEnds back = t)
    (hclear : carriageReturn ∉ Utf8.encode back) : Utf8.encode back = Utf8.encode t := by
  rw [carriageReturn_mem_encode_iff] at hclear
  rw [← h, unifyLineEnds_of_not_mem hclear]

end Split

/-! ### Splices of bytes -/

/-- A stretch of bytes and what takes its place. -/
structure BytePatch where
  start : Nat
  stop : Nat
  replacement : List UInt8

def BytePatch.span (p : BytePatch) : Nat × Nat := (p.start, p.stop)

/-- The bytes from `cursor` on in which the stretches of the patches are replaced. -/
def spliceBytes (input : List UInt8) (cursor : Nat) : List BytePatch → List UInt8
  | [] => input.drop cursor
  | p :: rest =>
    (input.drop cursor).take (p.start - cursor) ++ p.replacement ++ spliceBytes input p.stop rest

/-- The second bytes are the first with nothing but the ranges replaced, each by any bytes. -/
def KeepsOutside (input : List UInt8) (ranges : List (Nat × Nat)) (written : List UInt8) : Prop :=
  ∃ patches : List BytePatch, patches.map BytePatch.span = ranges ∧
    written = spliceBytes input 0 patches

/-- The bytes of no range. -/
def bytesOutside (input : List UInt8) (ranges : List (Nat × Nat)) : List UInt8 :=
  spliceBytes input 0 (ranges.map fun r => ⟨r.1, r.2, []⟩)

theorem keepsOutside_nil_iff {input written : List UInt8} :
    KeepsOutside input [] written ↔ written = input := by
  constructor
  · rintro ⟨patches, hspans, rfl⟩
    rw [List.map_eq_nil_iff.mp hspans]
    rfl
  · rintro rfl
    exact ⟨[], rfl, rfl⟩

@[simp] theorem bytesOutside_nil (input : List UInt8) : bytesOutside input [] = input := rfl

theorem bytesOutside_subset (input : List UInt8) (ranges : List (Nat × Nat)) :
    bytesOutside input ranges ⊆ input := by
  have hfrom : ∀ cursor, spliceBytes input cursor (ranges.map fun r => ⟨r.1, r.2, []⟩) ⊆ input := by
    induction ranges with
    | nil => exact fun cursor => List.drop_subset cursor input
    | cons r rest ih =>
      intro cursor
      rw [List.map_cons, spliceBytes, List.append_nil, List.append_subset]
      exact ⟨List.Subset.trans (List.take_subset _ _) (List.drop_subset _ _), ih r.2⟩
  exact hfrom 0

/-- What is outside of the ranges is kept whatever is put in. -/
theorem spliceBytes_subset {input : List UInt8} {cursor : Nat} (patches : List BytePatch) :
    spliceBytes input cursor ((patches.map BytePatch.span).map fun r => ⟨r.1, r.2, []⟩) ⊆
      spliceBytes input cursor patches := by
  induction patches generalizing cursor with
  | nil => exact List.Subset.refl _
  | cons p rest ih =>
    rw [List.map_cons, List.map_cons, spliceBytes, spliceBytes, List.append_nil, List.append_assoc]
    rw [List.append_subset]
    refine ⟨List.subset_append_left _ _, List.Subset.trans ih ?_⟩
    exact List.Subset.trans (List.subset_append_right _ _) (List.subset_append_right _ _)

section Splice

variable {raw : Text} {ps : List Patch} {a : Int}

/-- A patch of the characters as one of the bytes that they were read from. -/
def Patch.ofBytes (raw : Text) (p : Patch) : BytePatch :=
  ⟨(byteRange raw p.span).1, (byteRange raw p.span).2, Utf8.encode p.replacement⟩

/-- If no carriage return is copied, the characters may as well be spliced as bytes. -/
theorem encode_splice (ha : 0 ≤ a)
    (h : InOrder a (unifyLineEnds raw).length (ps.map Patch.span))
    (hclear : carriageReturn ∉ spliceBytes (Utf8.encode raw) (inputOffset raw a.toNat)
      (((ps.map Patch.span).map (byteRange raw)).map fun r => ⟨r.1, r.2, []⟩)) :
    Utf8.encode (splice (unifyLineEnds raw) a (unifyLineEnds raw).length ps) =
      spliceBytes (Utf8.encode raw) (inputOffset raw a.toNat) (ps.map (Patch.ofBytes raw)) := by
  induction ps generalizing a with
  | nil =>
    have hle : a ≤ (unifyLineEnds raw).length := h
    have hwithin : a.toNat ≤ (unifyLineEnds raw).length := by omega
    obtain ⟨part, hbytes, hpart⟩ := exists_rest hwithin
    rw [List.map_nil, List.map_nil, List.map_nil, spliceBytes, hbytes] at hclear
    rw [List.map_nil, spliceBytes, hbytes, encode_eq_of_not_mem hpart hclear, splice,
      window_eq_take ha hle (Int.le_refl _), Int.toNat_natCast,
      List.take_of_length_le (Nat.le_of_eq List.length_drop)]
  | cons p rest ih =>
    obtain ⟨hstart, hspan, hrest⟩ := h
    have hstart : a ≤ p.start := hstart
    have hspan : p.start ≤ p.stop := hspan
    have hstop := hrest.le
    have hforward : a.toNat ≤ p.start.toNat := by omega
    have hwithin : p.start.toNat ≤ (unifyLineEnds raw).length := by omega
    obtain ⟨part, hbytes, hpart⟩ := exists_stretch hforward hwithin
    rw [List.map_cons, List.map_cons, List.map_cons, spliceBytes, List.append_nil, List.mem_append,
      not_or] at hclear
    obtain ⟨hfirst, hothers⟩ := hclear
    have hpartClear : carriageReturn ∉ Utf8.encode part := by
      rw [← hbytes]
      exact hfirst
    have hwindow : Utf8.encode (window (unifyLineEnds raw) a p.start) = Utf8.encode part := by
      rw [encode_eq_of_not_mem hpart hpartClear,
        window_eq_take ha hstart (Int.le_trans hspan hstop)]
    rw [splice, Utf8.encode_append, Utf8.encode_append, hwindow, ← hbytes,
      ih (Int.le_trans ha (Int.le_trans hstart hspan)) hrest hothers]
    rfl

/-- A splice of the characters that were read keeps the bytes outside of what is replaced exactly if no
carriage return is among them. -/
theorem keepsOutside_splice_iff (h : InOrder 0 (unifyLineEnds raw).length (ps.map Patch.span))
    (hresult : '\r' ∉ splice (unifyLineEnds raw) 0 (unifyLineEnds raw).length ps) :
    KeepsOutside (Utf8.encode raw) ((ps.map Patch.span).map (byteRange raw))
        (Utf8.encode (splice (unifyLineEnds raw) 0 (unifyLineEnds raw).length ps)) ↔
      carriageReturn ∉ bytesOutside (Utf8.encode raw) ((ps.map Patch.span).map (byteRange raw)) := by
  constructor
  · rintro ⟨patches, hspans, hwritten⟩ hmem
    rw [← hspans] at hmem
    have hin := spliceBytes_subset patches hmem
    rw [← hwritten, carriageReturn_mem_encode_iff] at hin
    exact hresult hin
  · intro hclear
    have hoffset : inputOffset raw (0 : Int).toNat = 0 := by
      rw [Int.toNat_zero, inputOffset]
    refine ⟨ps.map (Patch.ofBytes raw), by rw [List.map_map, List.map_map]; rfl, ?_⟩
    have hsplice := encode_splice (Int.le_refl 0) h (by rw [hoffset]; exact hclear)
    rwa [hoffset] at hsplice

end Splice

end CondMarkup
