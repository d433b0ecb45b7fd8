import CondMarkup.Proofs.SourceTree
import CondMarkup.Proofs.Ternary

/-!
Which `<Else>` belongs to which `<If>`, said of the entries of a body without a direction of search:
`StartsWithElse` and `EndsWithIf` describe the neighbours of an entry with blank text left aside, and
the forward search for the second branch and the backward check are compared with them. The parts of
an `<If>` in a source tree are found in the tree, and the search in the body of its parent comes to
what the entries after it begin with.
-/

namespace CondMarkup

open Expansion

/-- The entries begin with the `<Else>` `e`, blank text aside. -/
def StartsWithElse (entries : List Node) (e : Node) : Prop :=
  ∃ blanks after, entries = blanks ++ e :: after ∧ (∀ b ∈ blanks, b.isBlankText = true) ∧
    e.isElse = true

/-- The entries end with an `<If>`, blank text aside. -/
def EndsWithIf (entries : List Node) : Prop :=
  ∃ before ifNode blanks, entries = before ++ ifNode :: blanks ∧ ifNode.isIf = true ∧
    ∀ b ∈ blanks, b.isBlankText = true

/-- Every `<Else>` in the body of a node has an `<If>` as its nearest preceding sibling that is not
blank text. -/
def Paired (n : Node) : Prop :=
  ∀ before e after, n.body = before ++ e :: after → e.isElse = true → EndsWithIf before

/-- The `<Else>` `e` is the next sibling of `n` that is not blank text, among the entries of a body
in the tree of `root`. -/
def NextElse (root n e : Node) : Prop :=
  ∃ p ∈ root.preorder, ∃ before following, p.body = before ++ n :: following ∧
    StartsWithElse following e

theorem isBlankText_eq_false_of_isElementOf {n : Node} {tag : String}
    (h : n.isElementOf tag = true) : n.isBlankText = false := by
  simp [Node.isBlankText, Node.kind_of_isElementOf h]

theorem isElementOf_eq_false_of_isBlankText {n : Node} (h : n.isBlankText = true) (tag : String) :
    n.isElementOf tag = false := by
  simp only [Node.isBlankText, Bool.and_eq_true, decide_eq_true_eq] at h
  simp [Node.isElementOf, h.1]

/-! ### Searching forwards -/

theorem startsWithElse_cons {n e : Node} {rest : List Node} :
    StartsWithElse (n :: rest) e ↔
      (n.isBlankText = true ∧ StartsWithElse rest e) ∨ (n = e ∧ e.isElse = true) := by
  constructor
  · rintro ⟨blanks, after, h, hblanks, he⟩
    cases blanks with
    | nil =>
      rw [List.nil_append, List.cons.injEq] at h
      exact Or.inr ⟨h.1, he⟩
    | cons b blanks =>
      rw [List.cons_append, List.cons.injEq] at h
      obtain ⟨rfl, rfl⟩ := h
      exact Or.inl ⟨hblanks n List.mem_cons_self, blanks, after, rfl,
        fun b hb => hblanks b (List.mem_cons_of_mem n hb), he⟩
  · rintro (⟨hn, blanks, after, rfl, hblanks, he⟩ | ⟨rfl, he⟩)
    · refine ⟨n :: blanks, after, rfl, fun b hb => ?_, he⟩
      rcases List.mem_cons.mp hb with rfl | hb
      · exact hn
      · exact hblanks b hb
    · exact ⟨[], rest, rfl, by simp, he⟩

theorem not_startsWithElse_nil {e : Node} : ¬ StartsWithElse [] e := by
  rintro ⟨blanks, after, h, _, _⟩
  simp at h

theorem StartsWithElse.mem {entries : List Node} {e : Node} (h : StartsWithElse entries e) :
    e ∈ entries := by
  obtain ⟨blanks, after, rfl, _, _⟩ := h
  simp

theorem StartsWithElse.isElse {entries : List Node} {e : Node} (h : StartsWithElse entries e) :
    e.isElse = true := by
  obtain ⟨_, _, _, _, he⟩ := h
  exact he

/-- The `<Else>` that the entries begin with, blank text aside. -/
def nextElse? : List Node → Option Node
  | [] => none
  | n :: rest => if n.isBlankText then nextElse? rest else if n.isElse then some n else none

/-- The body of the `<Else>` that the entries begin with, blank text aside. -/
def laterBody (entries : List Node) : List Node := ((nextElse? entries).map Node.body).getD []

theorem laterBody_cons (n : Node) (rest : List Node) : laterBody (n :: rest) =
    if n.isBlankText then laterBody rest else if n.isElse then n.body else [] := by
  rw [laterBody, nextElse?]
  split
  · rfl
  · split <;> rfl

theorem nextElse?_eq_some_iff {entries : List Node} {e : Node} :
    nextElse? entries = some e ↔ StartsWithElse entries e := by
  induction entries with
  | nil => exact ⟨fun h => by simp [nextElse?] at h, fun h => absurd h not_startsWithElse_nil⟩
  | cons n rest ih =>
    rw [nextElse?, startsWithElse_cons]
    by_cases hblank : n.isBlankText = true
    · have helse : n.isElse = false := isElementOf_eq_false_of_isBlankText hblank "Else"
      rw [if_pos hblank, ih]
      constructor
      · exact fun h => Or.inl ⟨hblank, h⟩
      · rintro (⟨_, h⟩ | ⟨rfl, he⟩)
        · exact h
        · rw [helse] at he
          cases he
    · rw [if_neg hblank]
      by_cases helse : n.isElse = true
      · rw [if_pos helse, Option.some.injEq]
        constructor
        · exact fun h => Or.inr ⟨h, h ▸ helse⟩
        · rintro (⟨h, _⟩ | ⟨h, _⟩)
          · exact absurd h hblank
          · exact h
      · rw [if_neg helse]
        constructor
        · intro h
          cases h
        · rintro (⟨h, _⟩ | ⟨rfl, he⟩)
          · exact absurd h hblank
          · exact absurd he helse

theorem leadingElse_eq_nextElse? (following : List Node) :
    Pairing.leadingElse following = ((nextElse? following).map Node.entries).getD (.ok []) := by
  induction following with
  | nil => rfl
  | cons n rest ih =>
    rw [Pairing.leadingElse, nextElse?]
    by_cases hblank : n.isBlankText = true
    · rw [if_pos hblank, if_pos hblank, ih]
    · rw [if_neg hblank, if_neg hblank]
      by_cases helse : n.isElse = true
      · rw [if_pos helse, if_pos helse]
        rfl
      · rw [if_neg helse, if_neg helse]
        rfl

/-- The search for the entries of the second branch finds those of the `<Else>` that comes next. -/
theorem leadingElse_cases (following : List Node) :
    (∃ e, StartsWithElse following e ∧ Pairing.leadingElse following = e.entries) ∨
      ((∀ e, ¬ StartsWithElse following e) ∧ Pairing.leadingElse following = .ok []) := by
  rw [leadingElse_eq_nextElse?]
  cases h : nextElse? following with
  | none =>
    refine Or.inr ⟨fun e he => ?_, rfl⟩
    rw [nextElse?_eq_some_iff.mpr he] at h
    cases h
  | some e => exact Or.inl ⟨e, nextElse?_eq_some_iff.mp h, rfl⟩

theorem StartsWithElse.leadingElse_eq {entries : List Node} {e : Node}
    (h : StartsWithElse entries e) : Pairing.leadingElse entries = e.entries := by
  rw [leadingElse_eq_nextElse?, nextElse?_eq_some_iff.mpr h]
  rfl

/-- What comes after a node in a list, if no node before it is the same. -/
theorem Pairing.after_append {n : Node} {before rest : List Node} (hself : n.same n = true)
    (hnot : ∀ m ∈ before, m.same n ≠ true) : Pairing.after n (before ++ n :: rest) = some rest := by
  induction before with
  | nil => rw [List.nil_append, Pairing.after, if_pos hself]
  | cons m before ih =>
    rw [List.cons_append, Pairing.after, if_neg (hnot m List.mem_cons_self)]
    exact ih fun k hk => hnot k (List.mem_cons_of_mem m hk)

/-! ### Checking backwards -/

/-- The check that goes through the entries from the left, with the last entry before them that is
not blank text. -/
theorem elsesFollowIfs_iff_of_before {entries : List Node} : ∀ {last : Option Node},
    Pairing.elsesFollowIfs last entries = true ↔
      ∀ before e after, entries = before ++ e :: after → e.isElse = true →
        EndsWithIf before ∨
          ((∀ b ∈ before, b.isBlankText = true) ∧ last.any Node.isIf = true) := by
  induction entries with
  | nil =>
    intro last
    simp [Pairing.elsesFollowIfs]
  | cons n rest ih =>
    intro last
    rw [Pairing.elsesFollowIfs, Bool.and_eq_true, ih, Bool.or_eq_true, Bool.not_eq_true']
    constructor
    · rintro ⟨hn, hrest⟩ before e after heq he
      cases before with
      | nil =>
        rw [List.nil_append, List.cons.injEq] at heq
        obtain ⟨rfl, _⟩ := heq
        rcases hn with hn | hn
        · rw [he] at hn
          exact absurd hn (by simp)
        · exact Or.inr ⟨by simp, hn⟩
      | cons m before =>
        rw [List.cons_append, List.cons.injEq] at heq
        obtain ⟨rfl, rfl⟩ := heq
        rcases hrest before e after rfl he with ⟨pre, i, blanks, rfl, hi, hb⟩ | ⟨hb, hlast⟩
        · exact Or.inl ⟨n :: pre, i, blanks, rfl, hi, hb⟩
        · -- all between is blank, so `n` is the `<If>`, or blank itself and hands on the last entry
          by_cases hblank : n.isBlankText = true
          · rw [if_pos hblank] at hlast
            refine Or.inr ⟨fun b hmem => ?_, hlast⟩
            rcases List.mem_cons.mp hmem with rfl | hmem
            · exact hblank
            · exact hb b hmem
          · rw [if_neg hblank] at hlast
            exact Or.inl ⟨[], n, before, rfl, hlast, hb⟩
    · intro h
      constructor
      · cases he : n.isElse with
        | false => exact Or.inl rfl
        | true =>
          rcases h [] n rest rfl he with ⟨pre, i, blanks, heq, _, _⟩ | ⟨_, hlast⟩
          · simp at heq
          · exact Or.inr hlast
      · intro before e after heq he
        rcases h (n :: before) e after (by rw [heq]; rfl) he with
          ⟨pre, i, blanks, hpre, hi, hb⟩ | ⟨hb, hlast⟩
        · cases pre with
          | nil =>
            rw [List.nil_append, List.cons.injEq] at hpre
            obtain ⟨rfl, rfl⟩ := hpre
            refine Or.inr ⟨hb, ?_⟩
            rw [if_neg (by rw [isBlankText_eq_false_of_isElementOf hi]; simp)]
            exact hi
          | cons m pre =>
            rw [List.cons_append, List.cons.injEq] at hpre
            exact Or.inl ⟨pre, i, blanks, hpre.2, hi, hb⟩
        · refine Or.inr ⟨fun b hmem => hb b (List.mem_cons_of_mem n hmem), ?_⟩
          rw [if_pos (hb n List.mem_cons_self)]
          exact hlast

theorem elsesFollowIfs_iff {entries : List Node} :
    Pairing.elsesFollowIfs none entries = true ↔
      ∀ before e after, entries = before ++ e :: after → e.isElse = true → EndsWithIf before := by
  rw [elsesFollowIfs_iff_of_before]
  simp

end CondMarkup
