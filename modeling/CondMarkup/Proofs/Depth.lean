import CondMarkup.Proofs.Parts
import CondMarkup.Proofs.Plan

/-!
Visits never nest too deep. `Fits root fuel n` says that the fuel is enough for all that a visit of
`n` comes to, where `n` is a node of the tree of `root` or was made for a ternary. A node of the tree
needs fuel for what is below it and for what follows it in its body, since the entries of an `<Else>`
are visited within the visit of the `<If>` before it. Whatever is planned for a node that fits, fits
with one step less.
-/

namespace CondMarkup

namespace Expansion

open Node

inductive Fits (root : Node) : Nat → Node → Prop
  | source {fuel : Nat} {n : Node} {following : List Node} (hplaced : Placed root n following)
      (hsize : 4 * (n.size + sizeAll following) ≤ fuel) : Fits root fuel n
  | made {fuel : Nat} {n : Node} {kind : Kind} {children : List Node} (hmade : n.IsMade kind children)
      (hkind : isPartKind kind = true) (hbelow : ∀ c ∈ children, Fits root fuel c) :
      Fits root (fuel + 1) n

variable {root n : Node} {fuel : Nat}

theorem not_fits_zero : ¬ Fits root 0 n := by
  intro h
  cases h with
  | source hplaced hsize =>
    have hpos := n.size_pos
    omega

/-- A node that fits is one of the tree, or it is made and neither an element nor an import. -/
theorem Fits.mem_or_isMade (h : Fits root fuel n) :
    n ∈ root.preorder ∨ ∃ kind children, n.IsMade kind children ∧ isPartKind kind = true := by
  cases h with
  | source hplaced => exact Or.inl (mem_of_placed hplaced)
  | made hmade hkind => exact Or.inr ⟨_, _, hmade, hkind⟩

/-- An element that fits is one of the tree. -/
theorem Fits.placed_of_element (h : Fits root fuel n) (helement : n.kind = .jsxElement) :
    ∃ following, Placed root n following ∧ 4 * (n.size + sizeAll following) ≤ fuel := by
  cases h with
  | source hplaced hsize => exact ⟨_, hplaced, hsize⟩
  | made hmade hkind =>
    rw [← hmade.kind_eq, helement] at hkind
    exact absurd hkind (by decide)

/-! ### Enough fuel -/

/-- The children of a node of the tree fit. -/
theorem fits_children {p c : Node} (hp : p ∈ root.preorder) (hc : c ∈ p.children)
    (hsize : 4 * sizeAll p.children ≤ fuel) : Fits root fuel c := by
  obtain ⟨before, rest, hcs⟩ := List.append_of_mem hc
  refine .source (placed_of_children hp hcs) ?_
  rw [hcs, sizeAll_append, sizeAll] at hsize
  split
  · omega
  · rw [sizeAll]
    omega

/-- A made node without children fits. -/
theorem fits_leaf {kind : Kind} (hmade : n.IsMade kind []) (hkind : isPartKind kind = true) :
    Fits root (fuel + 1) n :=
  .made hmade hkind fun _ hc => absurd hc List.not_mem_nil

/-- A branch fits if its entries do with two steps less. -/
theorem fits_wrap {ifNode : Node} {entries : List Node} (h : ∀ c ∈ entries, Fits root fuel c) :
    Fits root (fuel + 2) (Branches.wrap ifNode entries) := by
  refine .made (isMade_make _ _ _) rfl fun c hc => ?_
  simp only [List.mem_cons, List.not_mem_nil, or_false] at hc
  rcases hc with rfl | rfl | rfl
  · exact fits_leaf ⟨rfl, rfl, rfl, rfl⟩ rfl
  · exact .made (isMade_make _ _ _) rfl h
  · exact fits_leaf (isMade_make _ _ _) rfl

theorem fits_elseBranch {ifNode : Node} {entries : List Node} (h : ∀ c ∈ entries, Fits root fuel c) :
    Fits root (fuel + 2) (elseBranch ifNode entries) := by
  rw [elseBranch]
  split
  · exact fits_leaf (isMade_make _ _ _) rfl
  · exact fits_wrap h

theorem fits_conditionPart {condition : Node} {following : List Node}
    (hplaced : Placed root condition following)
    (hsize : 4 * (condition.size + sizeAll following) ≤ fuel) :
    Fits root (fuel + 1) (conditionPart condition) := by
  rw [conditionPart]
  split
  · refine .made (isMade_make _ _ _) rfl fun c hc => ?_
    rw [List.mem_singleton] at hc
    subst hc
    exact .source hplaced hsize
  · exact .source hplaced (by omega)

end Expansion

namespace SourceTree

open Expansion Node

variable {links : Links} {root : Node} (tree : SourceTree links root) {fuel : Nat}
include tree

/-- The entries of a body fit. -/
theorem fits_body {p c : Node} (hp : p ∈ root.preorder) (hc : c ∈ p.body)
    (hsize : 4 * sizeAll p.body ≤ fuel) : Fits root fuel c := by
  obtain ⟨before, rest, hbody⟩ := List.append_of_mem hc
  refine .source (tree.placed_of_body hp hbody) ?_
  rw [hbody, sizeAll_append, sizeAll] at hsize
  omega

/-- The ternary of an `<If>` fits: nothing in it is as large as the `<If>` with what follows it. -/
theorem fits_conditionalOf {n condition : Node} {following body other : List Node}
    (hplaced : Placed root n following) (hsize : 4 * (n.size + sizeAll following) ≤ fuel + 4)
    (hif : n.isIf = true) (hcondition : n.condition = .ok condition) (hbody : n.entries = .ok body)
    (hother : elseEntries links n = .ok other) :
    Fits root (fuel + 3) (conditionalOf n condition body other) := by
  have hn := mem_of_placed hplaced
  refine .made (isMade_make _ _ _) rfl fun c hc => ?_
  simp only [List.mem_cons, List.not_mem_nil, or_false] at hc
  rcases hc with rfl | rfl | rfl
  · have hlt := size_condition_lt hcondition
    refine fits_conditionPart (placed_condition hn hcondition) ?_
    rw [sizeAll]
    omega
  · refine fits_wrap fun c hc => ?_
    have hlt := sizeAll_body_lt n
    rw [((tree.entries_eq_ok_iff hn (hasBody_of_isIf hif)).mp hbody).1] at hc
    exact tree.fits_body hn hc (by omega)
  · refine fits_elseBranch fun c hc => ?_
    rcases tree.body_of_leadingElse hplaced ((tree.elseEntries_eq_ok_iff hplaced).mp hother).2 with
      rfl | ⟨e, he, hmem, _, rfl⟩
    · exact absurd hc List.not_mem_nil
    · have hlt := sizeAll_body_lt e
      have hle := size_le_sizeAll he.mem
      exact tree.fits_body hmem hc (by omega)

/-- What is planned for a node that fits, fits with one step less. -/
theorem fits_of_plan {s : Setting} (hlinks : s.links = links) {n c : Node} {nodes : List Node}
    (h : Fits root (fuel + 1) n) (hplan : plan s n = .ok nodes) (hc : c ∈ nodes) :
    Fits root fuel c := by
  rcases plan_eq_ok_cases hplan with
    rfl | ⟨hif, condition, body, other, hcondition, hbody, hother, rfl⟩ | rfl
  · exact absurd hc List.not_mem_nil
  · obtain ⟨following, hplaced, hsize⟩ := h.placed_of_element (kind_of_isElementOf hif)
    have hpos := n.size_pos
    obtain ⟨f, rfl⟩ : ∃ f, fuel = f + 3 := ⟨fuel - 3, by omega⟩
    rw [List.mem_singleton] at hc
    subst hc
    exact tree.fits_conditionalOf hplaced (by omega) hif hcondition hbody (hlinks ▸ hother)
  · cases h with
    | source hplaced hsize =>
      have hlt := sizeAll_children_lt n
      exact fits_children (mem_of_placed hplaced) hc (by omega)
    | made hmade hkind hbelow => exact hbelow c (hmade.children_eq ▸ hc)

omit tree in
/-- The children of the root fit into the depth of an expansion. -/
theorem fits_root {c : Node} (count : Nat) (hc : c ∈ root.children) :
    Fits root (visitDepth count root) c := by
  have hlt := sizeAll_children_lt root
  exact fits_children (self_mem_preorder root) hc (by rw [visitDepth]; omega)

end SourceTree

end CondMarkup
