import CondMarkup.Proofs.Failure
import CondMarkup.Proofs.Tree
import CondMarkup.Expansion.Pass

/-!
What one visit does when it succeeds. `visit_eq_ok_iff` says it for any node in terms of the visits of
the nodes below; the lemmas after it say the same for the nodes that a ternary is made of, so that the
parts of a ternary come down to the nodes of the source that were put into it.
-/

namespace CondMarkup

/-- What stands in the place of a list of nodes after each changed as given. -/
def results (changes : List (Node × Change)) : List Node :=
  changes.filterMap fun c => c.2.result c.1

@[simp] theorem results_nil : results [] = [] := rfl

theorem results_cons (n : Node) (change : Change) (rest : List (Node × Change)) :
    results ((n, change) :: rest) = (change.result n).toList ++ results rest := by
  cases change <;> rfl

namespace Node

/-- What becomes of a node when its children change as given. -/
def changed (n : Node) (changes : List (Node × Change)) : Change :=
  match changedChildren changes with
  | none => .keep
  | some children => .replace (n.copyWith children)

/-- The node with its children changed as given: itself if nothing changes. -/
def rebuilt (n : Node) (changes : List (Node × Change)) : Node :=
  ((n.changed changes).result n).getD n

theorem changed_cases (n : Node) (changes : List (Node × Change)) :
    ((∀ c ∈ changes, c.2 = .keep) ∧ n.changed changes = .keep ∧ n.rebuilt changes = n) ∨
      n.changed changes = .replace (n.copyWith (results changes)) ∧
        n.rebuilt changes = n.copyWith (results changes) := by
  cases h : changedChildren changes with
  | none =>
    refine Or.inl ⟨(changedChildren_eq_none_iff changes).mp h, ?_, ?_⟩
    · simp only [changed, h]
    · simp only [rebuilt, changed, h, Change.result, Option.getD_some]
  | some children =>
    have hchildren : children = results changes := by
      rw [changedChildren] at h
      split at h
      · exact absurd h (by simp)
      · exact (Option.some.inj h).symm
    subst hchildren
    exact Or.inr ⟨by simp only [changed, h], by simp [rebuilt, changed, h, Change.result]⟩

@[simp] theorem result_changed (n : Node) (changes : List (Node × Change)) :
    (n.changed changes).result n = some (n.rebuilt changes) := by
  rcases changed_cases n changes with ⟨_, h, h'⟩ | ⟨h, h'⟩ <;> rw [h, h'] <;> rfl

@[simp] theorem info_rebuilt (n : Node) (changes : List (Node × Change)) :
    (n.rebuilt changes).info = n.info := by
  rcases changed_cases n changes with ⟨_, _, h⟩ | ⟨_, h⟩ <;> rw [h]
  exact info_copyWith n _

@[simp] theorem kind_rebuilt (n : Node) (changes : List (Node × Change)) :
    (n.rebuilt changes).kind = n.kind := congrArg NodeInfo.kind (info_rebuilt n changes)

@[simp] theorem source_rebuilt (n : Node) (changes : List (Node × Change)) :
    (n.rebuilt changes).source = n.source := by
  rcases changed_cases n changes with ⟨_, _, h⟩ | ⟨_, h⟩ <;> rw [h]
  exact source_copyWith n _

theorem results_of_keep {changes : List (Node × Change)} (h : ∀ c ∈ changes, c.2 = .keep) :
    results changes = changes.map Prod.fst := by
  induction changes with
  | nil => rfl
  | cons c rest ih =>
    obtain ⟨n, change⟩ := c
    obtain rfl : change = .keep := h (n, change) List.mem_cons_self
    rw [results_cons, ih fun d hd => h d (List.mem_cons_of_mem _ hd), List.map_cons]
    rfl

theorem children_rebuilt {n : Node} {changes : List (Node × Change)}
    (h : changes.map Prod.fst = n.children) : (n.rebuilt changes).children = results changes := by
  rcases changed_cases n changes with ⟨hkeep, _, h'⟩ | ⟨_, h'⟩
  · rw [h', results_of_keep hkeep, h]
  · rw [h', children_copyWith]

end Node

namespace Expansion

theorem outcome_checked {α : Type} {x : Except Cause α} {a : α} :
    (checked x).outcome = .ok a ↔ x = .ok a := mapError_eq_ok_iff

/-- Each of the nodes in `changes` is visited and changes as given there. -/
def Visits (visit : Node → Visited) (changes : List (Node × Change)) : Prop :=
  ∀ c ∈ changes, (visit c.1).outcome = .ok c.2

theorem outcome_visitChildren {visit : Node → Visited} {n : Node} {change : Change} :
    (n.visitChildren visit).outcome = .ok change ↔
      ∃ changes, changes.map Prod.fst = n.children ∧ Visits visit changes ∧
        change = n.changed changes := by
  rw [Node.visitChildren, Journaled.outcome_bind_eq_ok_iff]
  constructor
  · rintro ⟨changes, h, hchange⟩
    obtain ⟨hfst, hvisits⟩ := Journaled.outcome_mapM_pairs.mp h
    exact ⟨changes, hfst, hvisits, (Journaled.outcome_pure_eq_ok_iff.mp hchange).symm⟩
  · rintro ⟨changes, hfst, hvisits, rfl⟩
    exact ⟨changes, Journaled.outcome_mapM_pairs.mpr ⟨hfst, hvisits⟩, rfl⟩

/-- The entries of the `<Else>` that belongs to an `<If>`. -/
def elseEntries (links : Links) (ifNode : Node) : Except Cause (List Node) :=
  match ifNode.markupParent links with
  | none => .ok []
  | some parent => Pairing.elseBody parent ifNode

/-- The second branch for the given entries of an `<Else>`. -/
def elseBranch (ifNode : Node) (entries : List Node) : Node :=
  if entries = [] then Node.makeNull else Branches.wrap ifNode entries

/-- The ternary in braces that is first made for an `<If>`. -/
def ternaryOf (ifNode condition : Node) (body other : List Node) : Node :=
  Node.makeExpression
    (Node.makeConditional condition (Branches.wrap ifNode body) (elseBranch ifNode other))

theorem whenFalse_eq_ok_iff {links : Links} {ifNode no : Node} :
    Branches.whenFalse links ifNode = .ok no ↔
      ∃ other, elseEntries links ifNode = .ok other ∧ no = elseBranch ifNode other := by
  rw [Branches.whenFalse, elseEntries]
  cases ifNode.markupParent links with
  | none =>
    constructor
    · intro h
      exact ⟨[], rfl, (pure_eq_ok_iff.mp h).symm⟩
    · rintro ⟨other, hother, rfl⟩
      cases hother
      rfl
  | some parent =>
    simp only [bind_eq_ok_iff]
    refine exists_congr fun other => and_congr_right fun _ => ?_
    cases other with
    | nil => rw [pure_eq_ok_iff]; exact eq_comm
    | cons entry rest => rw [pure_eq_ok_iff]; exact eq_comm

theorem ternary_eq_ok_iff {links : Links} {ifNode made : Node} :
    Branches.ternary links ifNode = .ok made ↔
      ∃ condition body other, ifNode.condition = .ok condition ∧ ifNode.entries = .ok body ∧
        elseEntries links ifNode = .ok other ∧ made = ternaryOf ifNode condition body other := by
  constructor
  · intro h
    obtain ⟨condition, hcondition, h⟩ := bind_eq_ok_iff.mp h
    obtain ⟨yes, hyes, h⟩ := bind_eq_ok_iff.mp h
    obtain ⟨no, hno, h⟩ := bind_eq_ok_iff.mp h
    obtain ⟨body, hbody, hyes⟩ := bind_eq_ok_iff.mp hyes
    obtain ⟨other, hother, rfl⟩ := whenFalse_eq_ok_iff.mp hno
    rw [pure_eq_ok_iff] at hyes h
    subst hyes h
    exact ⟨condition, body, other, hcondition, hbody, hother, rfl⟩
  · rintro ⟨condition, body, other, hcondition, hbody, hother, rfl⟩
    refine bind_eq_ok_iff.mpr ⟨condition, hcondition, ?_⟩
    refine bind_eq_ok_iff.mpr ⟨Branches.wrap ifNode body, ?_, ?_⟩
    · exact bind_eq_ok_iff.mpr ⟨body, hbody, rfl⟩
    · exact bind_eq_ok_iff.mpr
        ⟨elseBranch ifNode other, whenFalse_eq_ok_iff.mpr ⟨other, hother, rfl⟩, rfl⟩

theorem check_eq_ok_iff {n : Node} :
    Pairing.check n = .ok () ↔ Pairing.elsesFollowIfs none n.body = true := by
  rw [Pairing.check_eq]
  split <;> simp_all

/-- The check of an element or fragment that comes before anything else is done with it. -/
def Checked (n : Node) : Prop := n.hasBody = true → Pairing.elsesFollowIfs none n.body = true

theorem checked_of_hasBody {n : Node} (h : n.hasBody = false) : Checked n := by
  intro hbody
  rw [h] at hbody
  cases hbody

variable {s : Setting}

theorem outcome_expandIf {visit : Node → Visited} {n : Node} {change : Change} :
    (expandIf s visit n).outcome = .ok change ↔
      ∃ made changes, Branches.ternary s.links n = .ok made ∧
        changes.map Prod.fst = made.children ∧ Visits visit changes ∧
        change = .replace ((made.rebuilt changes).withOrigin n) := by
  constructor
  · intro h
    obtain ⟨made, hmade, h⟩ := Journaled.outcome_bind_eq_ok_iff.mp h
    obtain ⟨_, _, h⟩ := Journaled.outcome_bind_eq_ok_iff.mp h
    obtain ⟨inner, hinner, h⟩ := Journaled.outcome_bind_eq_ok_iff.mp h
    obtain ⟨changes, hfst, hvisits, rfl⟩ := outcome_visitChildren.mp hinner
    rw [Journaled.outcome_pure_eq_ok_iff] at h
    exact ⟨made, changes, outcome_checked.mp hmade, hfst, hvisits, h.symm⟩
  · rintro ⟨made, changes, hmade, hfst, hvisits, rfl⟩
    refine Journaled.outcome_bind_eq_ok_iff.mpr ⟨made, outcome_checked.mpr hmade, ?_⟩
    refine Journaled.outcome_bind_eq_ok_iff.mpr ⟨(), rfl, ?_⟩
    exact Journaled.outcome_bind_eq_ok_iff.mpr
      ⟨made.changed changes, outcome_visitChildren.mpr ⟨changes, hfst, hvisits, rfl⟩, rfl⟩

theorem outcome_removeElse {n : Node} {change : Change} :
    (removeElse s n).outcome = .ok change ↔
      (∃ p, n.markupParent s.links = some p) ∧ change = .remove := by
  rw [removeElse]
  cases n.markupParent s.links with
  | none =>
    rw [outcome_checked]
    simp
  | some p =>
    rw [Journaled.outcome_pure_eq_ok_iff]
    simp [eq_comm]

/-- What is done with a node that passed its check. -/
def Treated (s : Setting) (visit : Node → Visited) (n : Node) (change : Change) : Prop :=
  (n.isIf = true ∧ ∃ made changes, Branches.ternary s.links n = .ok made ∧
      changes.map Prod.fst = made.children ∧ Visits visit changes ∧
      change = .replace ((made.rebuilt changes).withOrigin n)) ∨
    (n.isIf = false ∧ n.isElse = true ∧ (∃ p, n.markupParent s.links = some p) ∧
      change = .remove) ∨
    (n.isIf = false ∧ n.isElse = false ∧ ∃ changes, changes.map Prod.fst = n.children ∧
      Visits visit changes ∧ change = n.changed changes)

theorem outcome_treatChecked {visit : Node → Visited} {n : Node} {change : Change} :
    (if n.isIf = true then expandIf s visit n
      else if n.isElse = true then removeElse s n
      else n.visitChildren visit).outcome = .ok change ↔ Treated s visit n change := by
  rw [Treated]
  by_cases hif : n.isIf = true
  · rw [if_pos hif, outcome_expandIf]
    simp [hif]
  · rw [if_neg hif]
    by_cases helse : n.isElse = true
    · rw [if_pos helse, outcome_removeElse]
      simp [hif, helse]
    · rw [if_neg helse, outcome_visitChildren]
      simp [hif, helse]

theorem outcome_treat {visit : Node → Visited} {n : Node} {change : Change} :
    (treat s visit n).outcome = .ok change ↔
      (n.moduleSpecifier = some s.marker ∧ change = .remove) ∨
      (n.moduleSpecifier ≠ some s.marker ∧ Checked n ∧ Treated s visit n change) := by
  rw [treat]
  by_cases himport : n.moduleSpecifier = some s.marker
  · rw [if_pos himport, Journaled.outcome_bind_eq_ok_iff]
    constructor
    · rintro ⟨_, _, h⟩
      exact Or.inl ⟨himport, (Journaled.outcome_pure_eq_ok_iff.mp h).symm⟩
    · rintro (⟨_, rfl⟩ | ⟨h, _⟩)
      · exact ⟨(), rfl, rfl⟩
      · exact absurd himport h
  · rw [if_neg himport]
    have hright : ((n.moduleSpecifier = some s.marker ∧ change = .remove) ∨
        (n.moduleSpecifier ≠ some s.marker ∧ Checked n ∧ Treated s visit n change)) ↔
        Checked n ∧ Treated s visit n change := by simp [himport]
    rw [hright, ← outcome_treatChecked]
    by_cases hbody : n.hasBody = true
    · simp only [if_pos hbody]
      rw [Journaled.outcome_bind_eq_ok_iff]
      constructor
      · rintro ⟨_, h, hx⟩
        exact ⟨fun _ => check_eq_ok_iff.mp (outcome_checked.mp h), hx⟩
      · rintro ⟨h, hx⟩
        exact ⟨(), outcome_checked.mpr (check_eq_ok_iff.mpr (h hbody)), hx⟩
    · simp only [if_neg hbody]
      exact ⟨fun hx => ⟨fun h => absurd h hbody, hx⟩, fun h => h.2⟩

/-- A visit succeeds in one of four ways. -/
theorem visit_eq_ok_iff {fuel : Nat} {n : Node} {change : Change} :
    (visit s (fuel + 1) n).outcome = .ok change ↔
      (n.moduleSpecifier = some s.marker ∧ change = .remove) ∨
      (n.moduleSpecifier ≠ some s.marker ∧ Checked n ∧ Treated s (visit s fuel) n change) := by
  rw [← outcome_treat, visit]
  refine mapError_eq_ok_iff.trans ?_
  rw [Journaled.outcome_bind_eq_ok_iff]
  exact ⟨fun ⟨_, _, h⟩ => h, fun h => ⟨(), rfl, h⟩⟩

/-- A visit that succeeds had fuel. -/
theorem exists_of_visit_eq_ok {fuel : Nat} {n : Node} {change : Change}
    (h : (visit s fuel n).outcome = .ok change) : ∃ less, fuel = less + 1 := by
  cases fuel with
  | zero =>
    rw [visit] at h
    cases h
  | succ less => exact ⟨less, rfl⟩

/-! ### The parts of a ternary -/

/-- Whether a node of the kind is neither an import nor an element. -/
def isPartKind (k : Kind) : Bool := k ≠ .importDeclaration && k ≠ .jsxElement

theorem plain_of_isPartKind {n : Node} (hkind : isPartKind n.kind = true) :
    n.moduleSpecifier = none ∧ n.isIf = false ∧ n.isElse = false := by
  obtain ⟨himport, helement⟩ : n.kind ≠ .importDeclaration ∧ n.kind ≠ .jsxElement := by
    simpa [isPartKind] using hkind
  refine ⟨by rw [Node.moduleSpecifier, if_neg himport], ?_, ?_⟩
  · simp [Node.isIf, Node.isElementOf, helement]
  · simp [Node.isElse, Node.isElementOf, helement]

/-- A node that is neither an import nor an element is visited by visiting its children. -/
theorem visit_part_eq_ok_iff {fuel : Nat} {n : Node} {change : Change}
    (hkind : isPartKind n.kind = true) :
    (visit s (fuel + 1) n).outcome = .ok change ↔
      Checked n ∧ ∃ changes, changes.map Prod.fst = n.children ∧ Visits (visit s fuel) changes ∧
        change = n.changed changes := by
  obtain ⟨hmodule, hif, helse⟩ := plain_of_isPartKind hkind
  rw [visit_eq_ok_iff, Treated]
  simp [hmodule, hif, helse]

/-- A part without children is kept. -/
theorem visit_leaf_eq_ok_iff {fuel : Nat} {n : Node} {change : Change}
    (hkind : isPartKind n.kind = true) (hbody : n.hasBody = false) (hleaf : n.children = []) :
    (visit s (fuel + 1) n).outcome = .ok change ↔ change = .keep := by
  rw [visit_part_eq_ok_iff hkind, hleaf]
  constructor
  · rintro ⟨_, changes, hfst, _, rfl⟩
    rw [List.map_eq_nil_iff.mp hfst]
    rfl
  · rintro rfl
    exact ⟨checked_of_hasBody hbody, [], rfl, fun _ h => absurd h List.not_mem_nil, rfl⟩

end Expansion

end CondMarkup
