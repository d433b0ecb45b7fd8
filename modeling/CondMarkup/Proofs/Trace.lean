import CondMarkup.Proofs.Location
import CondMarkup.Proofs.VisitOrder
import CondMarkup.Transform

/-!
The journal of an expansion. Made nodes aside, the steps of a visit are those of the nodes in the order
of visits: all of them if the visit succeeds, and the first of them if it fails. This is shown for one
visit by what it does in turn, and for the nodes below by induction on how deep visits may nest; the
parts that are made for a ternary add nothing of their own. So no node of the source is visited twice,
however the expansion ends, and the log of an expansion that succeeds can be read off the source.
-/

namespace CondMarkup

open Expansion

/-- The steps of a journal without the visits of made nodes. -/
def sourceSteps (journal : List Step) : List Step := journal.filter (· ≠ .visit none)

theorem sourceSteps_append (j k : List Step) :
    sourceSteps (j ++ k) = sourceSteps j ++ sourceSteps k := List.filter_append j k

/-- What the visit of a node of the source writes itself: that it is visited, and what is done with it
if it is an `<If>` or an import of the marker module. -/
def Node.steps (marker : String) (n : Node) : List Step :=
  .visit n.id ::
    if n.isIf then [.expandIf n.info.start]
    else if n.moduleSpecifier = some marker then [.removeImport marker]
    else []

/-- The computation goes through the steps in this order, to the end if it succeeds. -/
structure Traces {α : Type} (x : Journaled Step ExpansionError α) (steps : List Step) : Prop where
  begins : sourceSteps x.journal <+: steps
  ends : ∀ a, x.outcome = .ok a → sourceSteps x.journal = steps

section Traces

variable {α β : Type} {x : Journaled Step ExpansionError α} {steps more : List Step}

theorem traces_pure {a : α} : Traces (pure a : Journaled Step ExpansionError α) [] :=
  ⟨⟨[], rfl⟩, fun _ _ => rfl⟩

theorem traces_checked {x : Except Cause α} : Traces (checked x) [] :=
  ⟨⟨[], rfl⟩, fun _ _ => rfl⟩

theorem traces_error {e : ExpansionError} :
    Traces (.lift (.error e) : Journaled Step ExpansionError α) steps :=
  ⟨⟨steps, rfl⟩, fun _ h => by cases h⟩

theorem traces_write {step : Step} : Traces (.write step) (sourceSteps [step]) :=
  ⟨List.prefix_refl _, fun _ _ => rfl⟩

theorem Traces.bind {f : α → Journaled Step ExpansionError β} (hx : Traces x steps)
    (hf : ∀ a, x.outcome = .ok a → Traces (f a) more) : Traces (x >>= f) (steps ++ more) := by
  obtain ⟨journal, outcome⟩ := x
  cases outcome with
  | error e =>
    rw [Journaled.bind_error]
    exact ⟨hx.begins.trans (List.prefix_append _ _), fun _ h => by cases h⟩
  | ok a =>
    have hjournal : sourceSteps journal = steps := hx.ends a rfl
    rw [Journaled.bind_ok]
    constructor
    · rw [sourceSteps_append, hjournal]
      exact (List.prefix_append_right_inj steps).mpr (hf a rfl).begins
    · intro b hb
      rw [sourceSteps_append, hjournal, (hf a rfl).ends b hb]

theorem Traces.mapError {f : ExpansionError → ExpansionError} (hx : Traces x steps) :
    Traces (x.mapError f) steps :=
  ⟨hx.begins, fun a ha => hx.ends a (mapError_eq_ok_iff.mp ha)⟩

/-- A computation that is followed by one that writes nothing. -/
theorem Traces.bind_pure {f : α → β} (hx : Traces x steps) :
    Traces (do return f (← x)) steps := by
  have h := hx.bind (f := fun a => pure (f a)) fun a _ => traces_pure
  rwa [List.append_nil] at h

/-- A computation that follows a check. -/
theorem traces_checked_bind {x : Except Cause α} {f : α → Journaled Step ExpansionError β}
    (hf : ∀ a, x = .ok a → Traces (f a) steps) : Traces (checked x >>= f) steps := by
  have h := traces_checked.bind (f := f) fun a ha => hf a (outcome_checked.mp ha)
  rwa [List.nil_append] at h

end Traces

/-! ### Nodes visited in turn -/

/-- Visits of the node that nest no deeper than `fuel` go through the steps. -/
def Traced (s : Setting) (fuel : Nat) (n : Node) (steps : List Step) : Prop :=
  ∀ f ≤ fuel, Traces (visit s f n) steps

/-- Visits of the nodes, one after the other, go through the steps. -/
def TracedAll (s : Setting) (fuel : Nat) (ns : List Node) (steps : List Step) : Prop :=
  ∀ f ≤ fuel, Traces (ns.mapM fun c => do return (c, ← visit s f c)) steps

section Traced

variable {s : Setting} {fuel : Nat} {n : Node} {ns : List Node} {steps more : List Step}

theorem tracedAll_nil : TracedAll s fuel [] [] := by
  intro f _
  rw [List.mapM_nil]
  exact traces_pure

theorem tracedAll_cons (hn : Traced s fuel n steps) (hns : TracedAll s fuel ns more) :
    TracedAll s fuel (n :: ns) (steps ++ more) := by
  intro f hf
  rw [List.mapM_cons]
  refine (hn f hf).bind_pure.bind fun _ _ => ?_
  exact (hns f hf).bind_pure

theorem tracedAll_singleton (hn : Traced s fuel n steps) : TracedAll s fuel [n] steps := by
  have h := tracedAll_cons hn tracedAll_nil
  rwa [List.append_nil] at h

theorem TracedAll.visitChildren (h : TracedAll s fuel n.children steps) {f : Nat} (hf : f ≤ fuel) :
    Traces (n.visitChildren (visit s f)) steps := (h f hf).bind_pure

/-- The check of a node writes nothing. -/
theorem traces_treat {visit : Node → Visited} (himport : n.moduleSpecifier ≠ some s.marker)
    (h : Traces (if n.isIf = true then expandIf s visit n
      else if n.isElse = true then removeElse s n
      else n.visitChildren visit) steps) : Traces (treat s visit n) steps := by
  rw [treat, if_neg himport]
  by_cases hbody : n.hasBody = true
  · simp only [if_pos hbody]
    exact traces_checked_bind fun _ _ => h
  · simp only [if_neg hbody]
    exact h

/-- A visit writes that it begins, before anything else. -/
theorem traced_succ (h : Traces (treat s (visit s fuel) n) steps) :
    Traces (visit s (fuel + 1) n) (sourceSteps [.visit n.id] ++ steps) :=
  (traces_write.bind fun _ _ => h).mapError

/-- A made node that is neither an element nor an import goes through the steps of its children. -/
theorem traced_part (hid : n.id = none) (hkind : isPartKind n.kind = true)
    (h : TracedAll s fuel n.children steps) : Traced s fuel n steps := by
  intro f hf
  cases f with
  | zero => exact traces_error
  | succ f =>
    obtain ⟨hmodule, hif, helse⟩ := plain_of_isPartKind hkind
    have hwrite : sourceSteps [.visit n.id] = [] := by rw [hid]; rfl
    have htreat : Traces (treat s (visit s f) n) steps := by
      apply traces_treat (by rw [hmodule]; simp)
      rw [if_neg (by rw [hif]; simp), if_neg (by rw [helse]; simp)]
      exact h.visitChildren (by omega)
    have hvisit := traced_succ htreat
    rwa [hwrite, List.nil_append] at hvisit

/-! ### The ternary of an `<If>` -/

theorem traced_leaf {kind : Kind} (hmade : n.IsMade kind []) (hkind : isPartKind kind = true) :
    Traced s fuel n [] := by
  refine traced_part hmade.id_eq (by rw [hmade.kind_eq]; exact hkind) ?_
  rw [hmade.children_eq]
  exact tracedAll_nil

theorem traced_wrap {ifNode : Node} (h : TracedAll s fuel ns steps) :
    Traced s fuel (Branches.wrap ifNode ns) steps := by
  have hmade : (Branches.openingFor ifNode).IsMade .jsxOpeningFragment [] := ⟨rfl, rfl, rfl, rfl⟩
  have hopen : Traced s fuel (Branches.openingFor ifNode) [] := traced_leaf hmade rfl
  have hlist : Traced s fuel (Node.makeList ns) steps := traced_part rfl rfl h
  have hclose : Traced s fuel Node.makeClosingFragment [] :=
    traced_leaf (Node.isMade_make _ _ _) rfl
  have hparts := tracedAll_cons hopen (tracedAll_cons hlist (tracedAll_singleton hclose))
  rw [List.nil_append, List.append_nil] at hparts
  exact traced_part rfl rfl hparts

theorem traced_elseBranch {ifNode : Node} (h : TracedAll s fuel ns steps) :
    Traced s fuel (elseBranch ifNode ns) steps := by
  rw [elseBranch]
  split
  · rename_i hnil
    subst hnil
    have hsteps : [] = steps := (h 0 (Nat.zero_le _)).ends [] rfl
    rw [← hsteps]
    exact traced_leaf (Node.isMade_make _ _ _) rfl
  · exact traced_wrap h

theorem traced_conditionPart (h : Traced s fuel n steps) :
    Traced s fuel (conditionPart n) steps := by
  rw [conditionPart]
  split
  · exact traced_part rfl rfl (tracedAll_singleton h)
  · exact h

/-- The parts of a ternary go through the steps of what was put into them, from left to right. -/
theorem traced_conditionalOf {ifNode condition : Node} {body other : List Node}
    {first yes no : List Step} (hcondition : Traced s fuel condition first)
    (hbody : TracedAll s fuel body yes) (hother : TracedAll s fuel other no) :
    Traced s fuel (conditionalOf ifNode condition body other) (first ++ yes ++ no) := by
  have hyes : Traced s fuel (Branches.wrap ifNode body) yes := traced_wrap hbody
  have hno : Traced s fuel (elseBranch ifNode other) no := traced_elseBranch hother
  have hparts := tracedAll_cons (traced_conditionPart hcondition)
    (tracedAll_cons hyes (tracedAll_singleton hno))
  rw [← List.append_assoc] at hparts
  exact traced_part rfl rfl hparts

end Traced

/-! ### Nodes of the source -/

/-- What is written for nodes of the source that are visited in the given order. -/
def stepsOf (marker : String) (order : List Node) : List Step := order.flatMap (Node.steps marker)

section StepsOf

variable {s : Setting} {fuel : Nat} {marker : String} {inBody : Bool} {n : Node} {ns ms : List Node}

theorem stepsOf_append : stepsOf marker (ns ++ ms) = stepsOf marker ns ++ stepsOf marker ms :=
  List.flatMap_append

theorem stepsOf_cons : stepsOf marker (n :: ns) = n.steps marker ++ stepsOf marker ns :=
  List.flatMap_cons

/-- Siblings go through the steps of each of them, in front of those after it. -/
theorem tracedAll_of_traced
    (h : ∀ before c rest, ns = before ++ c :: rest →
      Traced s fuel c (stepsOf marker (visitOrder marker (if inBody then rest else []) c))) :
    TracedAll s fuel ns (stepsOf marker (visitOrderAll marker inBody ns)) := by
  induction ns with
  | nil =>
    rw [visitOrderAll]
    exact tracedAll_nil
  | cons c rest ih =>
    rw [visitOrderAll, stepsOf_append]
    refine tracedAll_cons (h [] c rest rfl) (ih fun before d after hsplit => ?_)
    exact h (c :: before) d after (by rw [hsplit]; rfl)

end StepsOf

namespace SourceTree

variable {s : Setting} {root n : Node} {following : List Node} (tree : SourceTree s.links root)
include tree

/-- What is written after a node that is expanded: that it is, and what its parts write. -/
theorem traces_expandIf {fuel : Nat} (hplaced : Placed root n following) (hif : n.isIf = true)
    (hbelow : ∀ later c, Placed root c later →
      Traced s fuel c (stepsOf s.marker (visitOrder s.marker later c))) :
    Traces (expandIf s (visit s fuel) n) (.expandIf n.info.start ::
      stepsOf s.marker (conditionOrder s.marker n ++ visitOrderAll s.marker true n.body ++
        visitOrderAll s.marker true (laterBody following))) := by
  have hn := mem_of_placed hplaced
  refine traces_checked_bind fun made hmade => ?_
  obtain ⟨condition, body, other, hcondition, hbody, hother, rfl⟩ := ternary_eq_ok_iff.mp hmade
  obtain ⟨rfl, _⟩ := (tree.entries_eq_ok_iff hn (Node.hasBody_of_isIf hif)).mp hbody
  obtain rfl := tree.laterBody_eq (fun c => mem_of_following hplaced)
    ((tree.elseEntries_eq_ok_iff hplaced).mp hother).2
  have hconditionTraced := hbelow [] condition (placed_condition hn hcondition)
  have hbodyTraced : TracedAll s fuel n.body (stepsOf s.marker (visitOrderAll s.marker true n.body)) :=
    tracedAll_of_traced fun before c rest hsplit => hbelow rest c (tree.placed_of_body hn hsplit)
  have hotherTraced : TracedAll s fuel (laterBody following)
      (stepsOf s.marker (visitOrderAll s.marker true (laterBody following))) := by
    refine tracedAll_of_traced fun before c rest hsplit => ?_
    obtain ⟨e, _, hmem, hb⟩ :=
      tree.exists_of_mem_laterBody (c := c) hplaced (by rw [hsplit]; simp)
    exact hbelow rest c (tree.placed_of_body hmem (hb ▸ hsplit))
  have hparts : Traces ((ternaryOf n condition n.body (laterBody following)).visitChildren
      (visit s fuel)) (stepsOf s.marker (conditionOrder s.marker n ++
        visitOrderAll s.marker true n.body ++
          visitOrderAll s.marker true (laterBody following))) := by
    rw [stepsOf_append, stepsOf_append, conditionOrder, hcondition]
    exact (tracedAll_singleton (traced_conditionalOf hconditionTraced hbodyTraced
      hotherTraced)).visitChildren (Nat.le_refl fuel)
  exact traces_write.bind fun _ _ => hparts.bind_pure

/-- A visit of a node of the source goes through the steps of the nodes in its order of visits. -/
theorem traced_visit (fuel : Nat) : ∀ following n, Placed root n following →
    Traced s fuel n (stepsOf s.marker (visitOrder s.marker following n)) := by
  induction fuel with
  | zero =>
    intro following n _ f hf
    rw [Nat.le_zero.mp hf]
    exact traces_error
  | succ fuel ih =>
    intro following n hplaced f hf
    rcases Nat.lt_or_eq_of_le hf with hless | rfl
    · exact ih following n hplaced f (Nat.le_of_lt_succ hless)
    have hn := mem_of_placed hplaced
    have hwrite : sourceSteps [.visit n.id] = [.visit n.id] := by
      obtain ⟨i, hi, _⟩ := tree.found n hn
      rw [hi]
      rfl
    -- in each case: what the node writes itself, then what is visited below
    have htreat : ∃ own below, visitOrder s.marker following n = n :: below ∧
        n.steps s.marker = .visit n.id :: own ∧
        Traces (treat s (visit s fuel) n) (own ++ stepsOf s.marker below) := by
      by_cases himport : n.moduleSpecifier = some s.marker
      · have hif := Node.isIf_eq_false_of_import himport
        refine ⟨_, [], visitOrder_of_import himport, rfl, ?_⟩
        rw [if_neg (by rw [hif]; exact Bool.false_ne_true), if_pos himport, treat, if_pos himport]
        exact traces_write.bind_pure
      · by_cases hif : n.isIf = true
        · refine ⟨_, _, visitOrder_of_isIf hif, rfl, traces_treat himport ?_⟩
          rw [if_pos hif, if_pos hif]
          exact tree.traces_expandIf hplaced hif ih
        · by_cases helse : n.isElse = true
          · refine ⟨_, [], visitOrder_of_isElse helse, rfl, traces_treat himport ?_⟩
            rw [if_neg hif, if_neg himport, if_neg hif, if_pos helse, removeElse]
            cases n.markupParent s.links with
            | none => exact traces_checked
            | some p => exact traces_pure
          · have hplain := isConstruct_eq_false_iff.mpr
              ⟨eq_false_of_ne_true hif, eq_false_of_ne_true helse, himport⟩
            refine ⟨_, _, visitOrder_of_plain hplain, rfl, traces_treat himport ?_⟩
            rw [if_neg hif, if_neg himport, if_neg hif, if_neg helse, List.nil_append]
            refine TracedAll.visitChildren (tracedAll_of_traced ?_) (Nat.le_refl fuel)
            intro before c rest hsplit
            simp only [decide_eq_true_eq]
            exact ih _ c (placed_of_children hn hsplit)
    obtain ⟨own, below, horder, hsteps, htraces⟩ := htreat
    have hvisit := traced_succ htraces
    rw [hwrite] at hvisit
    rw [horder, stepsOf_cons, hsteps]
    exact hvisit

end SourceTree

/-! ### A whole expansion -/

/-- What is logged when a node of the source is visited and its visit succeeds. -/
def Node.record? (marker fileName : String) (n : Node) : Option LogRecord :=
  if n.isIf then some ⟨.debug, s!"Rewriting <If> at {n.info.start} in {fileName}"⟩
  else if n.moduleSpecifier = some marker then
    some ⟨.debug, s!"Removing import of '{marker}' in {fileName}"⟩
  else none

theorem records_steps {marker fileName : String} (n : Node) :
    (n.steps marker).filterMap (Step.record? fileName) = (n.record? marker fileName).toList := by
  rw [Node.steps, Node.record?]
  split
  · rfl
  · split <;> rfl

theorem records_stepsOf {marker fileName : String} (ns : List Node) :
    (stepsOf marker ns).filterMap (Step.record? fileName) =
      ns.filterMap (Node.record? marker fileName) := by
  induction ns with
  | nil => rfl
  | cons n rest ih =>
    rw [stepsOf_cons, List.filterMap_append, records_steps, ih, List.filterMap_cons]
    cases n.record? marker fileName <;> rfl

/-- Visits of made nodes leave no record. -/
theorem records_sourceSteps {fileName : String} (journal : List Step) :
    (sourceSteps journal).filterMap (Step.record? fileName) =
      journal.filterMap (Step.record? fileName) := by
  rw [sourceSteps, List.filterMap_filter]
  refine List.filterMap_congr fun step _ => ?_
  by_cases hmade : step = .visit none
  · rw [hmade]
    rfl
  · simp [hmade]

theorem count_steps {marker : String} (i : NodeId) (n : Node) :
    (n.steps marker).count (.visit (some i)) = [n.id].count (some i) := by
  have hown : ∀ own : List Step, (∀ step ∈ own, ∀ j, step ≠ .visit j) →
      (Step.visit n.id :: own).count (.visit (some i)) = [n.id].count (some i) := by
    intro own hown
    have hzero : own.count (.visit (some i)) = 0 :=
      List.count_eq_zero.mpr fun hmem => hown _ hmem (some i) rfl
    rw [List.count_cons, hzero, List.count_singleton, Nat.zero_add]
    simp
  rw [Node.steps]
  apply hown
  intro step hstep j
  split at hstep
  · rw [List.mem_singleton.mp hstep]
    simp
  · split at hstep
    · rw [List.mem_singleton.mp hstep]
      simp
    · exact absurd hstep List.not_mem_nil

theorem count_stepsOf {marker : String} (i : NodeId) (ns : List Node) :
    (stepsOf marker ns).count (.visit (some i)) = (ns.map Node.id).count (some i) := by
  induction ns with
  | nil => rfl
  | cons n rest ih =>
    rw [stepsOf_cons, List.count_append, count_steps, ih, List.map_cons, ← List.count_append]
    rfl

namespace SourceFile

variable {name : String} {text : Text} {tree : GrammarTree} {file : SourceFile}

/-- The nodes of a file that its expansion visits if it succeeds, in order. -/
def visitOrder (file : SourceFile) (marker : String) : List Node :=
  visitOrderAll marker false file.root.children

theorem traces_expand (hfile : ofGrammar name text tree = .ok file) (marker reportedName : String) :
    Traces (file.expand marker reportedName) (stepsOf marker (file.visitOrder marker)) := by
  have hsource : SourceTree (file.setting marker reportedName).links file.root := sourceTree hfile
  have hchildren : TracedAll (file.setting marker reportedName)
      (visitDepth file.nodes.size file.root) file.root.children
      (stepsOf marker (file.visitOrder marker)) := by
    refine tracedAll_of_traced fun before c rest hsplit => ?_
    have hplaced := placed_of_children (Node.self_mem_preorder file.root) hsplit
    rw [if_neg hsource.rootKind] at hplaced
    exact hsource.traced_visit _ [] c hplaced
  exact (hchildren.visitChildren (Nat.le_refl _)).bind_pure

/-- The expansion of a parsed file comes to an end and visits no node of the source twice, whether it
succeeds or fails. The steps that concern nodes of the source are the first of those of the order of
visits, which is the order of the nodes that are reached; if the expansion succeeds they are all of
them, and the log has a record for each `<If>` and each import of the marker module in this order. -/
theorem expand_visits_once (hfile : ofGrammar name text tree = .ok file)
    (marker reportedName : String) :
    (file.expand marker reportedName).outcome ≠ .error .endless ∧
    (∀ i, (file.expand marker reportedName).journal.count (.visit (some i)) ≤ 1) ∧
    ((file.visitOrder marker).map Node.id).Nodup ∧
    (∀ n, n ∈ file.visitOrder marker ↔ Reached marker file.root n) ∧
    sourceSteps (file.expand marker reportedName).journal <+:
      stepsOf marker (file.visitOrder marker) ∧
    ∀ out, (file.expand marker reportedName).outcome = .ok out →
      sourceSteps (file.expand marker reportedName).journal =
        stepsOf marker (file.visitOrder marker) ∧
      (file.transformed marker reportedName).journal = (file.visitOrder marker).filterMap
        (Node.record? marker (file.setting marker reportedName).fileName) := by
  have hsource := sourceTree hfile
  have htraces := traces_expand hfile marker reportedName
  have hnodup : ((file.visitOrder marker).map Node.id).Nodup := hsource.nodup_ids_visitOrderAll_root
  refine ⟨fun hendless => ?_, fun i => ?_, hnodup, fun n => hsource.mem_visitOrderAll_root_iff,
    htraces.begins, fun out hout => ?_⟩
  · obtain ⟨_, _, herr⟩ := exists_raised hfile hendless
    cases herr
  · have hcount : (sourceSteps (file.expand marker reportedName).journal).count (.visit (some i)) =
        (file.expand marker reportedName).journal.count (.visit (some i)) :=
      List.count_filter (by simp)
    rw [← hcount]
    calc (sourceSteps (file.expand marker reportedName).journal).count (.visit (some i))
        ≤ (stepsOf marker (file.visitOrder marker)).count (.visit (some i)) :=
          htraces.begins.sublist.count_le _
      _ = ((file.visitOrder marker).map Node.id).count (some i) := count_stepsOf i _
      _ ≤ 1 := List.nodup_iff_count_le_one.mp hnodup (some i)
  · have hsteps := htraces.ends out hout
    refine ⟨hsteps, ?_⟩
    show (file.expand marker reportedName).journal.filterMap _ = _
    rw [← records_sourceSteps, hsteps, records_stepsOf]

/-- On the small page, whose one `<If>` has another in its `<Else>`. -/
theorem expand_visits_once_smallPage :
    ∃ file, ofGrammar "page.tsx" SmallPage.text SmallPage.tree = .ok file ∧
      (file.expand "m" "").outcome ≠ .error .endless ∧
      (∀ i, (file.expand "m" "").journal.count (.visit (some i)) ≤ 1) ∧
      (∀ n, n ∈ file.visitOrder "m" ↔ Reached "m" file.root n) ∧
      (file.transformed "m" "").journal =
        (file.visitOrder "m").filterMap (Node.record? "m" (file.setting "m" "").fileName) := by
  obtain ⟨file, out, hfile, hout, _⟩ := SmallPage.exists_expanded
  obtain ⟨hends, honce, _, hreached, _, hsuccess⟩ := expand_visits_once hfile "m" ""
  exact ⟨file, hfile, hends, honce, hreached, (hsuccess out hout).2⟩

end SourceFile

end CondMarkup
