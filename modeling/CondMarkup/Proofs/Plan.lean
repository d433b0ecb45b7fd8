import CondMarkup.Proofs.Ternary

/-!
What a visit of a node has to do, and how it fails. `plan s n` lists the nodes that are visited in
turn within the visit of `n`, or says what is wrong with `n` itself. A visit fails exactly if its plan
does or if one of the planned visits does, and then it is the first such visit that ends it. So every
visit that fails has within it a chain of visits that are under way at that moment, each planned by
the one before: `activeVisits`.
-/

namespace CondMarkup.Expansion

open Journaled hiding pure

/-- What is planned for a node that passed its check. -/
def planChecked (s : Setting) (n : Node) : Except Cause (List Node) :=
  if n.isIf then Branches.ternary s.links n >>= fun made => .ok made.children
  else if n.isElse then
    match n.markupParent s.links with
    | none => .error .elseOutsideMarkup
    | some _ => .ok []
  else .ok n.children

/-- The nodes that are visited in turn within the visit of a node, or what is wrong with the node. -/
def plan (s : Setting) (n : Node) : Except Cause (List Node) :=
  if n.moduleSpecifier = some s.marker then .ok []
  else if n.hasBody then Pairing.check n >>= fun _ => planChecked s n
  else planChecked s n

/-- A check finds a misuse. -/
def Refuses {α : Type} (x : Except Cause α) (e : ExpansionError) : Prop :=
  ∃ cause, x = .error cause ∧ e = .misuse { what := cause }

/-- A computation with the given plan fails with `e`: the plan itself does, or a planned visit. -/
def FailsBy (visit : Node → Visited) (planned : Except Cause (List Node)) (e : ExpansionError) :
    Prop :=
  Refuses planned e ∨ ∃ nodes c, planned = .ok nodes ∧ FailsFirst visit nodes c e

variable {s : Setting} {visit : Node → Visited} {n : Node} {e : ExpansionError} {α β : Type}

theorem refuses_error {cause : Cause} :
    Refuses (.error cause : Except Cause α) e ↔ e = .misuse { what := cause } := by
  constructor
  · rintro ⟨_, h, he⟩
    rw [Except.error.injEq] at h
    exact h ▸ he
  · intro he
    exact ⟨cause, rfl, he⟩

theorem not_refuses_ok {a : α} : ¬ Refuses (.ok a) e := by
  rintro ⟨_, h, _⟩
  cases h

theorem refuses_bind {x : Except Cause α} {f : α → Except Cause β} :
    Refuses (x >>= f) e ↔ Refuses x e ∨ ∃ a, x = .ok a ∧ Refuses (f a) e := by
  cases x with
  | error cause =>
    constructor
    · exact fun h => Or.inl (refuses_error.mpr (refuses_error.mp h))
    · rintro (h | ⟨_, h, _⟩)
      · exact refuses_error.mpr (refuses_error.mp h)
      · cases h
  | ok a =>
    constructor
    · exact fun h => Or.inr ⟨a, rfl, h⟩
    · rintro (h | ⟨_, h, hf⟩)
      · exact absurd h not_refuses_ok
      · cases h
        exact hf

theorem failsBy_ok {nodes : List Node} :
    FailsBy visit (.ok nodes) e ↔ ∃ c, FailsFirst visit nodes c e := by
  constructor
  · rintro (h | ⟨_, c, h, hc⟩)
    · exact absurd h not_refuses_ok
    · rw [Except.ok.injEq] at h
      exact ⟨c, h ▸ hc⟩
  · rintro ⟨c, hc⟩
    exact Or.inr ⟨nodes, c, rfl, hc⟩

theorem failsBy_error {cause : Cause} :
    FailsBy visit (.error cause) e ↔ e = .misuse { what := cause } := by
  rw [FailsBy, refuses_error]
  constructor
  · rintro (h | ⟨_, _, h, _⟩)
    · exact h
    · cases h
  · exact Or.inl

theorem not_failsBy_nil : ¬ FailsBy visit (.ok []) e := by
  rw [failsBy_ok]
  rintro ⟨c, before, after, h, _⟩
  simp at h

theorem failsBy_bind {x : Except Cause α} {f : α → Except Cause (List Node)} :
    FailsBy visit (x >>= f) e ↔ Refuses x e ∨ ∃ a, x = .ok a ∧ FailsBy visit (f a) e := by
  rw [FailsBy, refuses_bind]
  simp only [bind_eq_ok_iff, FailsBy]
  constructor
  · rintro ((h | ⟨a, ha, h⟩) | ⟨nodes, c, ⟨a, ha, h⟩, hc⟩)
    · exact Or.inl h
    · exact Or.inr ⟨a, ha, Or.inl h⟩
    · exact Or.inr ⟨a, ha, Or.inr ⟨nodes, c, h, hc⟩⟩
  · rintro (h | ⟨a, ha, h | ⟨nodes, c, h, hc⟩⟩)
    · exact Or.inl (Or.inl h)
    · exact Or.inl (Or.inr ⟨a, ha, h⟩)
    · exact Or.inr ⟨nodes, c, ⟨a, ha, h⟩, hc⟩

/-! ### What is planned -/

/-- Nothing is planned for an import of the marker module; any other node has to pass its check. -/
theorem planChecked_of_plan_eq_ok {nodes : List Node} (h : plan s n = .ok nodes) :
    nodes = [] ∨ planChecked s n = .ok nodes := by
  rw [plan] at h
  split at h
  · exact Or.inl (Except.ok.inj h).symm
  · split at h
    · obtain ⟨_, _, h⟩ := bind_eq_ok_iff.mp h
      exact Or.inr h
    · exact Or.inr h

theorem planChecked_of_plan_eq_error {cause : Cause} (h : plan s n = .error cause) :
    cause = .elseWithoutIf ∨ planChecked s n = .error cause := by
  rw [plan] at h
  split at h
  · cases h
  · split at h
    · rcases bind_eq_error_iff.mp h with h | ⟨_, _, h⟩
      · rw [Pairing.check_eq] at h
        split at h
        · cases h
        · exact Or.inl (Except.error.inj h).symm
      · exact Or.inr h
    · exact Or.inr h

/-- The nodes that are planned are the ternary of an `<If>`, without its braces, or the children; or
there are none. -/
theorem plan_eq_ok_cases {nodes : List Node} (h : plan s n = .ok nodes) :
    nodes = [] ∨ (n.isIf = true ∧ ∃ condition body other, n.condition = .ok condition ∧
      n.entries = .ok body ∧ elseEntries s.links n = .ok other ∧
      nodes = [conditionalOf n condition body other]) ∨ nodes = n.children := by
  rcases planChecked_of_plan_eq_ok h with rfl | h
  · exact Or.inl rfl
  rw [planChecked] at h
  split at h
  · rename_i hif
    obtain ⟨made, hmade, h⟩ := bind_eq_ok_iff.mp h
    obtain ⟨condition, body, other, hcondition, hbody, hother, rfl⟩ := ternary_eq_ok_iff.mp hmade
    rw [Except.ok.injEq] at h
    exact Or.inr (Or.inl ⟨hif, condition, body, other, hcondition, hbody, hother, h.symm⟩)
  · split at h
    · split at h
      · cases h
      · exact Or.inl (Except.ok.inj h).symm
    · exact Or.inr (Or.inr (Except.ok.inj h).symm)

/-- What can be wrong with a node: an `<Else>` among its entries, the parts of its ternary, or its own
place if it is an `<Else>`. -/
theorem plan_eq_error_cases {cause : Cause} (h : plan s n = .error cause) :
    cause = .elseWithoutIf ∨ (n.isIf = true ∧ Branches.ternary s.links n = .error cause) ∨
      cause = .elseOutsideMarkup := by
  rcases planChecked_of_plan_eq_error h with h | h
  · exact Or.inl h
  rw [planChecked] at h
  split at h
  · rename_i hif
    rcases bind_eq_error_iff.mp h with h | ⟨_, _, h⟩
    · exact Or.inr (Or.inl ⟨hif, h⟩)
    · cases h
  · split at h
    · split at h
      · exact Or.inr (Or.inr (Except.error.inj h).symm)
      · cases h
    · cases h

/-! ### Visits that fail -/

theorem outcome_checked_eq_error_iff {x : Except Cause α} :
    (checked x).outcome = .error e ↔ Refuses x e := mapError_eq_error_iff

/-- A check and what comes after it. -/
theorem outcome_checked_bind_eq_error_iff {x : Except Cause α}
    {f : α → Journaled Step ExpansionError β} :
    (checked x >>= f).outcome = .error e ↔
      Refuses x e ∨ ∃ a, x = .ok a ∧ (f a).outcome = .error e := by
  rw [outcome_bind_eq_error_iff, outcome_checked_eq_error_iff]
  simp only [outcome_checked]

/-- What comes before does not fail. -/
theorem outcome_write_bind_eq_error_iff {step : Step} {f : Unit → Journaled Step ExpansionError β} :
    (Journaled.write step >>= f).outcome = .error e ↔ (f ()).outcome = .error e := by
  rw [outcome_bind]
  rfl

/-- What comes after does not fail. -/
theorem outcome_bind_pure_eq_error_iff {x : Journaled Step ExpansionError α} {f : α → β} :
    (x >>= fun a => pure (f a)).outcome = .error e ↔ x.outcome = .error e := by
  rw [outcome_bind_eq_error_iff]
  constructor
  · rintro (h | ⟨_, _, h⟩)
    · exact h
    · cases h
  · exact Or.inl

theorem outcome_visitChildren_eq_error_iff :
    (n.visitChildren visit).outcome = .error e ↔ ∃ c, FailsFirst visit n.children c e := by
  rw [Node.visitChildren, outcome_bind_pure_eq_error_iff, outcome_mapM_pairs_eq_error_iff]

theorem outcome_expandIf_eq_error_iff :
    (expandIf s visit n).outcome = .error e ↔
      FailsBy visit (Branches.ternary s.links n >>= fun made => .ok made.children) e := by
  rw [expandIf, outcome_checked_bind_eq_error_iff, failsBy_bind]
  refine or_congr_right (exists_congr fun made => and_congr_right fun _ => ?_)
  rw [outcome_write_bind_eq_error_iff, outcome_bind_pure_eq_error_iff, failsBy_ok,
    outcome_visitChildren_eq_error_iff]

theorem outcome_removeElse_eq_error_iff :
    (removeElse s n).outcome = .error e ↔ FailsBy visit
      (match n.markupParent s.links with
        | none => .error .elseOutsideMarkup
        | some _ => .ok []) e := by
  rw [removeElse]
  cases n.markupParent s.links with
  | none =>
    show _ ↔ FailsBy visit (.error .elseOutsideMarkup) e
    rw [outcome_checked_eq_error_iff, refuses_error, failsBy_error]
  | some p =>
    constructor
    · intro h
      cases h
    · intro h
      exact absurd h not_failsBy_nil

theorem outcome_treatChecked_eq_error_iff :
    (if n.isIf = true then expandIf s visit n
      else if n.isElse = true then removeElse s n
      else n.visitChildren visit).outcome = .error e ↔ FailsBy visit (planChecked s n) e := by
  rw [planChecked]
  by_cases hif : n.isIf = true
  · rw [if_pos hif, if_pos hif, outcome_expandIf_eq_error_iff]
  · rw [if_neg hif, if_neg hif]
    by_cases helse : n.isElse = true
    · rw [if_pos helse, if_pos helse, outcome_removeElse_eq_error_iff]
    · rw [if_neg helse, if_neg helse, failsBy_ok, outcome_visitChildren_eq_error_iff]

theorem outcome_treat_eq_error_iff :
    (treat s visit n).outcome = .error e ↔ FailsBy visit (plan s n) e := by
  rw [treat, plan]
  by_cases himport : n.moduleSpecifier = some s.marker
  · rw [if_pos himport, if_pos himport, outcome_write_bind_eq_error_iff]
    constructor
    · intro h
      cases h
    · intro h
      exact absurd h not_failsBy_nil
  · rw [if_neg himport, if_neg himport]
    by_cases hbody : n.hasBody = true
    · simp only [if_pos hbody]
      rw [outcome_checked_bind_eq_error_iff, failsBy_bind]
      refine or_congr_right (exists_congr fun _ => and_congr_right fun _ => ?_)
      exact outcome_treatChecked_eq_error_iff
    · simp only [if_neg hbody]
      exact outcome_treatChecked_eq_error_iff

/-- A visit fails by its plan, and the error gets its place on the way out. -/
theorem visit_eq_error_iff {fuel : Nat} :
    (Expansion.visit s (fuel + 1) n).outcome = .error e ↔
      ∃ inner, FailsBy (Expansion.visit s fuel) (plan s n) inner ∧ e = placeError s n inner := by
  rw [Expansion.visit]
  refine mapError_eq_error_iff.trans (exists_congr fun inner => and_congr_left fun _ => ?_)
  rw [outcome_write_bind_eq_error_iff, outcome_treat_eq_error_iff]

/-! ### The visits that are under way -/

/-- Of nodes that are visited in turn, the first whose visit fails. -/
def firstFailing? (visit : Node → Visited) (nodes : List Node) : Option Node :=
  nodes.find? fun c => !(visit c).outcome.isOk

/-- The visits that are under way when a visit fails among those of nodes visited in turn, from the
outermost to the innermost. -/
def activeVisits (s : Setting) : Nat → List Node → List Node
  | 0, _ => []
  | fuel + 1, nodes =>
    match firstFailing? (Expansion.visit s (fuel + 1)) nodes with
    | none => []
    | some c => c :: activeVisits s fuel ((plan s c).toOption.getD [])

theorem firstFailing?_eq_some {nodes : List Node} {c : Node} (h : FailsFirst visit nodes c e) :
    firstFailing? visit nodes = some c := by
  obtain ⟨before, after, rfl, hbefore, hc⟩ := h
  rw [firstFailing?, List.find?_append, List.find?_eq_none.mpr, Option.none_or,
    List.find?_cons_of_pos]
  · rw [hc]
    rfl
  · intro b hb
    obtain ⟨x, hx⟩ := hbefore b hb
    rw [hx]
    simp [Except.isOk, Except.toBool]

/-- The first visit that fails is under way, and so are those under way within it. -/
theorem activeVisits_eq {fuel : Nat} {nodes : List Node} {c : Node}
    (h : FailsFirst (Expansion.visit s (fuel + 1)) nodes c e) :
    activeVisits s (fuel + 1) nodes = c :: activeVisits s fuel ((plan s c).toOption.getD []) := by
  rw [activeVisits, firstFailing?_eq_some h]

theorem activeVisits_nil (fuel : Nat) : activeVisits s fuel [] = [] := by
  cases fuel <;> rfl

end CondMarkup.Expansion
