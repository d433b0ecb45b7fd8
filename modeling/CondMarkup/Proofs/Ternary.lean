import CondMarkup.Proofs.Visit

/-!
The ternary that takes the place of an `<If>`. Visiting the parts that were made for it comes down to
visiting the condition, the entries of the body and those of the `<Else>`. What then stands there is
described by `IsTernary`, which does not care whether a part is the one first made or a copy.
-/

namespace CondMarkup.Expansion

open Node Branches

/-! ### Visiting the parts -/

/-- The condition as it is put into the ternary. -/
def conditionPart (condition : Node) : Node :=
  if condition.bindsLoosely then makeParenthesized condition else condition

/-- What becomes of the condition in the ternary when it changes as given. -/
def conditionChange (condition : Node) (change : Change) : Change :=
  if condition.bindsLoosely then (makeParenthesized condition).changed [(condition, change)]
  else change

/-- What becomes of a branch when its entries change as given. -/
def branchChange (ifNode : Node) (entries : List (Node × Change)) : Change :=
  let list := makeList (entries.map Prod.fst)
  (wrap ifNode (entries.map Prod.fst)).changed
    [(openingFor ifNode, .keep), (list, list.changed entries), (makeClosingFragment, .keep)]

/-- The same for the second branch, which is `null` without entries. -/
def elseChange (ifNode : Node) (entries : List (Node × Change)) : Change :=
  if entries.map Prod.fst = [] then .keep else branchChange ifNode entries

/-- The ternary without its braces, as it is first made. -/
def conditionalOf (ifNode condition : Node) (body other : List Node) : Node :=
  makeConditional condition (wrap ifNode body) (elseBranch ifNode other)

/-- What takes the place of an `<If>` when the parts of its ternary change as given. -/
def expanded (ifNode condition : Node) (change : Change) (yes no : List (Node × Change)) : Node :=
  let conditional := conditionalOf ifNode condition (yes.map Prod.fst) (no.map Prod.fst)
  ((makeExpression conditional).rebuilt [(conditional, conditional.changed
    [(conditionPart condition, conditionChange condition change),
      (wrap ifNode (yes.map Prod.fst), branchChange ifNode yes),
      (elseBranch ifNode (no.map Prod.fst), elseChange ifNode no)])]).withOrigin ifNode

variable {s : Setting}

/-- The changes of a single node. -/
theorem visits_singleton {visit : Node → Visited} {n : Node} {changes : List (Node × Change)}
    (hfst : changes.map Prod.fst = [n]) (h : Visits visit changes) :
    ∃ change, changes = [(n, change)] ∧ (visit n).outcome = .ok change := by
  obtain ⟨c, rest, rfl, hc, hrest⟩ := List.map_eq_cons_iff.mp hfst
  obtain rfl := List.map_eq_nil_iff.mp hrest
  exact ⟨c.2, by rw [← hc], by rw [← hc]; exact h c List.mem_cons_self⟩

/-- The changes of three nodes. -/
theorem visits_three {visit : Node → Visited} {a b c : Node} {changes : List (Node × Change)}
    (hfst : changes.map Prod.fst = [a, b, c]) (h : Visits visit changes) :
    ∃ x y z, changes = [(a, x), (b, y), (c, z)] ∧ (visit a).outcome = .ok x ∧
      (visit b).outcome = .ok y ∧ (visit c).outcome = .ok z := by
  obtain ⟨p, ps, rfl, hp, hps⟩ := List.map_eq_cons_iff.mp hfst
  obtain ⟨q, qs, rfl, hq, hqs⟩ := List.map_eq_cons_iff.mp hps
  obtain ⟨z, rfl, hr⟩ := visits_singleton hqs fun r hr => h r (by simp [hr])
  refine ⟨p.2, q.2, z, by rw [← hp, ← hq], ?_, ?_, hr⟩
  · rw [← hp]
    exact h p (by simp)
  · rw [← hq]
    exact h q (by simp)

theorem visits_cons {visit : Node → Visited} {n : Node} {change : Change}
    {rest : List (Node × Change)} (hn : (visit n).outcome = .ok change) (h : Visits visit rest) :
    Visits visit ((n, change) :: rest) := by
  intro c hc
  rcases List.mem_cons.mp hc with rfl | hc
  · exact hn
  · exact h c hc

theorem visits_nil {visit : Node → Visited} : Visits visit [] := fun _ h =>
  absurd h List.not_mem_nil

/-- A list that was made is visited by visiting its entries. -/
theorem visit_makeList_eq_ok_iff {fuel : Nat} {entries : List Node} {change : Change} :
    (visit s (fuel + 1) (makeList entries)).outcome = .ok change ↔
      ∃ changes, changes.map Prod.fst = entries ∧ Visits (visit s fuel) changes ∧
        change = (makeList entries).changed changes := by
  rw [visit_part_eq_ok_iff rfl]
  exact ⟨fun h => h.2, fun h => ⟨checked_of_hasBody rfl, h⟩⟩

/-- A branch is visited by visiting its entries, which are checked once more. -/
theorem visit_wrap_eq_ok_iff {fuel : Nat} {ifNode : Node} {entries : List Node} {change : Change} :
    (visit s (fuel + 2) (wrap ifNode entries)).outcome = .ok change ↔
      Pairing.elsesFollowIfs none entries = true ∧
        ∃ changes, changes.map Prod.fst = entries ∧ Visits (visit s fuel) changes ∧
          change = branchChange ifNode changes := by
  rw [visit_part_eq_ok_iff rfl]
  refine and_congr ⟨fun h => h rfl, fun h _ => h⟩ ?_
  constructor
  · rintro ⟨parts, hfst, hvisits, rfl⟩
    obtain ⟨x, y, z, rfl, hx, hy, hz⟩ := visits_three hfst hvisits
    obtain ⟨changes, rfl, hchanges, rfl⟩ := visit_makeList_eq_ok_iff.mp hy
    rw [visit_leaf_eq_ok_iff rfl rfl rfl] at hx hz
    subst hx hz
    exact ⟨changes, rfl, hchanges, rfl⟩
  · rintro ⟨changes, rfl, hchanges, rfl⟩
    refine ⟨_, rfl, ?_, rfl⟩
    refine visits_cons ((visit_leaf_eq_ok_iff rfl rfl rfl).mpr rfl) ?_
    refine visits_cons (visit_makeList_eq_ok_iff.mpr ⟨changes, rfl, hchanges, rfl⟩) ?_
    exact visits_cons ((visit_leaf_eq_ok_iff rfl rfl rfl).mpr rfl) visits_nil

theorem visit_elseBranch_eq_ok_iff {fuel : Nat} {ifNode : Node} {entries : List Node}
    {change : Change} :
    (visit s (fuel + 2) (elseBranch ifNode entries)).outcome = .ok change ↔
      Pairing.elsesFollowIfs none entries = true ∧
        ∃ changes, changes.map Prod.fst = entries ∧ Visits (visit s fuel) changes ∧
          change = elseChange ifNode changes := by
  rw [elseBranch]
  by_cases hentries : entries = []
  · subst hentries
    rw [if_pos rfl, visit_leaf_eq_ok_iff rfl rfl rfl]
    constructor
    · rintro rfl
      exact ⟨rfl, [], rfl, visits_nil, rfl⟩
    · rintro ⟨_, changes, hfst, _, rfl⟩
      rw [elseChange, if_pos hfst]
  · rw [if_neg hentries, visit_wrap_eq_ok_iff]
    refine and_congr_right fun _ => exists_congr fun changes => ?_
    refine and_congr_right fun hfst => and_congr_right fun _ => ?_
    rw [elseChange, if_neg (by rw [hfst]; exact hentries)]

/-- How deep a condition may be visited that is put into a ternary. -/
def conditionFuel (fuel : Nat) (condition : Node) : Nat :=
  if condition.bindsLoosely then fuel else fuel + 1

theorem visit_conditionPart_eq_ok_iff {fuel : Nat} {condition : Node} {change : Change} :
    (visit s (fuel + 1) (conditionPart condition)).outcome = .ok change ↔
      ∃ inner, (visit s (conditionFuel fuel condition) condition).outcome = .ok inner ∧
        change = conditionChange condition inner := by
  rw [conditionPart, conditionFuel]
  by_cases hloose : condition.bindsLoosely = true
  · simp only [conditionChange, if_pos hloose]
    rw [visit_part_eq_ok_iff rfl]
    constructor
    · rintro ⟨_, changes, hfst, hvisits, rfl⟩
      obtain ⟨inner, rfl, hinner⟩ := visits_singleton hfst hvisits
      exact ⟨inner, hinner, rfl⟩
    · rintro ⟨inner, hinner, rfl⟩
      exact ⟨checked_of_hasBody rfl, _, rfl, visits_cons hinner visits_nil, rfl⟩
  · simp only [conditionChange, if_neg hloose]
    exact ⟨fun h => ⟨change, h, rfl⟩, fun ⟨inner, h, hchange⟩ => hchange ▸ h⟩

/-- Expanding an `<If>` succeeds when its parts are found and the visits of the condition and of all
entries succeed. -/
theorem expandIf_eq_ok_iff {fuel : Nat} {n : Node} {change : Change} :
    (∃ made changes, ternary s.links n = .ok made ∧ changes.map Prod.fst = made.children ∧
      Visits (visit s (fuel + 3)) changes ∧ change = .replace ((made.rebuilt changes).withOrigin n)) ↔
    ∃ condition inner yes no, n.condition = .ok condition ∧ n.entries = .ok (yes.map Prod.fst) ∧
      elseEntries s.links n = .ok (no.map Prod.fst) ∧
      Pairing.elsesFollowIfs none (yes.map Prod.fst) = true ∧
      Pairing.elsesFollowIfs none (no.map Prod.fst) = true ∧
      (visit s (conditionFuel (fuel + 1) condition) condition).outcome = .ok inner ∧
      Visits (visit s fuel) yes ∧ Visits (visit s fuel) no ∧
      change = .replace (expanded n condition inner yes no) := by
  constructor
  · rintro ⟨made, changes, hmade, hfst, hvisits, rfl⟩
    obtain ⟨condition, body, other, hcondition, hbody, hother, rfl⟩ := ternary_eq_ok_iff.mp hmade
    obtain ⟨outer, rfl, houter⟩ := visits_singleton hfst hvisits
    rw [visit_part_eq_ok_iff rfl] at houter
    obtain ⟨_, parts, hparts, hvparts, rfl⟩ := houter
    obtain ⟨x, y, z, rfl, hx, hy, hz⟩ := visits_three hparts hvparts
    obtain ⟨inner, hinner, rfl⟩ := visit_conditionPart_eq_ok_iff.mp hx
    obtain ⟨hyes, yes, rfl, hvyes, rfl⟩ := visit_wrap_eq_ok_iff.mp hy
    obtain ⟨hno, no, rfl, hvno, rfl⟩ := visit_elseBranch_eq_ok_iff.mp hz
    exact ⟨condition, inner, yes, no, hcondition, hbody, hother, hyes, hno, hinner, hvyes, hvno, rfl⟩
  · rintro ⟨condition, inner, yes, no, hcondition, hbody, hother, hyes, hno, hinner, hvyes, hvno,
      rfl⟩
    refine ⟨_, _, ternary_eq_ok_iff.mpr ⟨condition, _, _, hcondition, hbody, hother, rfl⟩, rfl, ?_,
      rfl⟩
    refine visits_cons ?_ visits_nil
    rw [visit_part_eq_ok_iff rfl]
    refine ⟨checked_of_hasBody rfl, _, rfl, ?_, rfl⟩
    refine visits_cons (visit_conditionPart_eq_ok_iff.mpr ⟨inner, hinner, rfl⟩) ?_
    refine visits_cons (visit_wrap_eq_ok_iff.mpr ⟨hyes, yes, rfl, hvyes, rfl⟩) ?_
    exact visits_cons (visit_elseBranch_eq_ok_iff.mpr ⟨hno, no, rfl, hvno, rfl⟩) visits_nil

/-- Nothing less than three more steps expands an `<If>`. -/
theorem three_le_of_expandIf {fuel : Nat} {n made : Node} {changes : List (Node × Change)}
    (hmade : ternary s.links n = .ok made) (hfst : changes.map Prod.fst = made.children)
    (hvisits : Visits (visit s fuel) changes) : 3 ≤ fuel := by
  obtain ⟨condition, body, other, _, _, _, rfl⟩ := ternary_eq_ok_iff.mp hmade
  obtain ⟨outer, rfl, houter⟩ := visits_singleton hfst hvisits
  obtain ⟨f, rfl⟩ := exists_of_visit_eq_ok houter
  rw [visit_part_eq_ok_iff rfl] at houter
  obtain ⟨_, parts, hparts, hinner, _⟩ := houter
  obtain ⟨_, y, _, _, _, hy, _⟩ := visits_three hparts hinner
  obtain ⟨g, rfl⟩ := exists_of_visit_eq_ok hy
  rw [visit_part_eq_ok_iff rfl] at hy
  obtain ⟨_, entries, hentries, hlist, _⟩ := hy
  obtain ⟨x, _, _, _, hx, _, _⟩ := visits_three hentries hlist
  obtain ⟨h, rfl⟩ := exists_of_visit_eq_ok hx
  omega

end CondMarkup.Expansion
