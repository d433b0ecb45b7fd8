import CondMarkup.Code.Lexis
import CondMarkup.Proofs.Utf8

/-!
Reading only goes on. Every reader of a part of source code ends at a place that is reached from the one
that it starts at, by passing over characters.
-/

namespace CondMarkup

namespace Cursor

/-- The place is reached by reading on. -/
def Reaches (c d : Cursor) : Prop := ∃ n, d = c.skip n

variable {c d e : Cursor}

@[simp] theorem skip_zero (c : Cursor) : c.skip 0 = c := rfl

theorem skip_of_rest_eq_nil (n : Nat) (h : c.rest = []) : c.skip n = c := by
  cases n with
  | zero => rfl
  | succ n =>
    obtain ⟨offset, rest⟩ := c
    obtain rfl : rest = [] := h
    rfl

theorem skip_succ {x : Char} {rest : Text} (n : Nat) (h : c.rest = x :: rest) :
    c.skip (n + 1) = (Cursor.mk (c.offset + x.utf8Size) rest).skip n := by
  obtain ⟨offset, left⟩ := c
  obtain rfl : left = x :: rest := h
  rfl

theorem skip_skip (m n : Nat) (c : Cursor) : (c.skip m).skip n = c.skip (m + n) := by
  induction m generalizing c with
  | zero => rw [skip_zero, Nat.zero_add]
  | succ m ih =>
    cases h : c.rest with
    | nil => rw [skip_of_rest_eq_nil _ h, skip_of_rest_eq_nil _ h, skip_of_rest_eq_nil _ h]
    | cons x rest => rw [skip_succ m h, ih, Nat.succ_add, skip_succ _ h]

@[grind ←] theorem Reaches.refl (c : Cursor) : c.Reaches c := ⟨0, rfl⟩

@[grind →] theorem Reaches.trans (h : c.Reaches d) (h' : d.Reaches e) : c.Reaches e := by
  obtain ⟨m, rfl⟩ := h
  obtain ⟨n, rfl⟩ := h'
  exact ⟨m + n, skip_skip m n c⟩

@[grind ←] theorem reaches_skip (n : Nat) (c : Cursor) : c.Reaches (c.skip n) := ⟨n, rfl⟩

@[grind ←] theorem reaches_skipWhile (p : Char → Bool) (c : Cursor) : c.Reaches (c.skipWhile p) :=
  reaches_skip _ c

@[grind →] theorem Reaches.of_skip {n : Nat} (h : (c.skip n).Reaches d) : c.Reaches d :=
  (reaches_skip n c).trans h

@[grind →] theorem Reaches.of_skipWhile {p : Char → Bool} (h : (c.skipWhile p).Reaches d) :
    c.Reaches d := (reaches_skipWhile p c).trans h

@[grind →] theorem reaches_of_skipOver? {s : String} (h : c.skipOver? s = some d) : c.Reaches d := by
  rw [skipOver?, Option.ite_none_right_eq_some] at h
  exact Option.some.inj h.2 ▸ reaches_skip _ c

/-- The bytes read so far and those that are left are all bytes. -/
theorem Reaches.offset_add_length (h : c.Reaches d) :
    d.offset + (Utf8.encode d.rest).length = c.offset + (Utf8.encode c.rest).length := by
  obtain ⟨n, rfl⟩ := h
  induction n generalizing c with
  | zero => rfl
  | succ n ih =>
    cases hrest : c.rest with
    | nil => rw [skip_of_rest_eq_nil _ hrest, hrest]
    | cons x rest =>
      rw [skip_succ n hrest, ih, Utf8.encode_cons, List.length_append, Utf8.length_encodeChar]
      exact Nat.add_assoc _ _ _

theorem Reaches.offset_le (h : c.Reaches d) : c.offset ≤ d.offset := by
  obtain ⟨n, rfl⟩ := h
  induction n generalizing c with
  | zero => exact Nat.le_refl _
  | succ n ih =>
    cases hrest : c.rest with
    | nil => exact Nat.le_of_eq (congrArg offset (skip_of_rest_eq_nil _ hrest).symm)
    | cons x rest =>
      rw [skip_succ n hrest]
      have hrest' := ih (c := ⟨c.offset + x.utf8Size, rest⟩)
      exact Nat.le_trans (Nat.le_add_right _ _) hrest'

end Cursor

namespace Lexis

open Cursor

variable {c d : Cursor}

/-! ### Names and literals -/

@[grind ←] theorem reaches_restOfName (fuel : Nat) (c : Cursor) : c.Reaches (restOfName fuel c) := by
  fun_induction restOfName fuel c <;> grind

theorem reaches_of_name? (h : name? c = some d) : c.Reaches d := by
  rw [name?] at h
  split at h
  · refine (reaches_skip 1 c).trans ?_
    dsimp only at h
    split at h <;> grind
  · dsimp only at h
    split at h <;> grind

@[grind ←] theorem reaches_restOfNumber (isHex : Bool) (c : Cursor) (fuel : Nat) :
    c.Reaches (restOfNumber isHex c fuel) := by
  fun_induction restOfNumber isHex c fuel <;> grind

theorem reaches_of_number? (h : number? c = some d) : c.Reaches d := by
  rw [number?, Option.ite_none_right_eq_some] at h
  exact Option.some.inj h.2 ▸ (reaches_skip 1 c).trans (reaches_restOfNumber _ _ _)

@[grind →] theorem reaches_of_restOfString {quote : Char} {fuel : Nat}
    (h : restOfString quote c fuel = some d) : c.Reaches d := by
  fun_induction restOfString quote c fuel <;> grind

theorem reaches_of_string? (h : string? c = some d) : c.Reaches d := by
  rw [string?] at h
  split at h <;> grind

@[grind →] theorem reaches_of_restOfRegex {inBrackets : Bool} {fuel : Nat}
    (h : restOfRegex inBrackets c fuel = some d) : c.Reaches d := by
  fun_induction restOfRegex inBrackets c fuel with
  | case8 _ c => exact Option.some.inj h ▸ (reaches_skip 1 c).trans (reaches_skipWhile _ _)
  | _ => grind

theorem reaches_of_regex? (h : regex? c = some d) : c.Reaches d := by
  rw [regex?] at h
  split at h <;> grind

/-! ### What means nothing -/

@[grind ←] theorem reaches_restOfComment (c : Cursor) (fuel : Nat) :
    c.Reaches (restOfComment c fuel) := by
  fun_induction restOfComment c fuel <;> grind

theorem reaches_endOfLine (c : Cursor) : c.Reaches (endOfLine c) := reaches_skipWhile _ c

@[grind →] theorem reaches_of_comment? (h : comment? c = some d) : c.Reaches d := by
  rw [comment?] at h
  split at h
  · exact Option.some.inj h ▸ reaches_endOfLine c
  · exact Option.some.inj h ▸ (reaches_skip 2 c).trans (reaches_restOfComment _ _)
  · cases h

theorem reaches_of_documentComment? (h : documentComment? c = some d) : c.Reaches d := by
  rw [documentComment?, Option.ite_none_right_eq_some] at h
  exact Option.some.inj h.2 ▸ reaches_endOfLine c

theorem reaches_of_reference? (h : reference? c = some d) : c.Reaches d := by
  have hclose : ∀ {c : Cursor} {digits most : Nat},
      (if 1 ≤ digits ∧ digits ≤ most then (c.skip digits).skipOver? ";" else none) = some d →
        c.Reaches d := by
    intro c digits most h
    rw [Option.ite_none_right_eq_some] at h
    exact (reaches_skip digits c).trans (reaches_of_skipOver? h.2)
  rw [reference?] at h
  dsimp only at h
  split at h
  · exact (reaches_skip 3 c).trans (hclose h)
  · exact (reaches_skip 3 c).trans (hclose h)
  · exact (reaches_skip 2 c).trans (hclose h)
  · exact (reaches_skip 1 c).trans (hclose h)
  · cases h

@[grind ←] theorem reaches_trivia (c : Cursor) (fuel : Nat) : c.Reaches (trivia c fuel) := by
  fun_induction trivia c fuel <;> grind

end Lexis

end CondMarkup
