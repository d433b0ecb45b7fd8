import CondMarkup.Proofs.CopyText
import CondMarkup.Proofs.Depth
import CondMarkup.Proofs.Success
import CondMarkup.Proofs.Written

/-!
Where an error is reported. What is wrong is found in the innermost of the visits that are under way,
and the error leaves them one after the other. The first of them whose node belongs to the source
gives the error its place, and none of those around it changes it. So every error that ends the
expansion of a parsed file tells a file name and the text of a node of the source.
-/

namespace CondMarkup

namespace Expansion

open Journaled

/-- An error as it leaves the visits that are under way, which are listed from the outermost to the
innermost. -/
def located (s : Setting) (cause : Cause) : List Node → Located Cause
  | [] => { what := cause }
  | n :: inner =>
    let e := located s cause inner
    if n.hasSource then e.withPlace s.fileName (window s.text n.info.start n.info.stop) else e

section Located

variable {s : Setting} {cause : Cause} {n : Node} {outer inner : List Node}

theorem placeError_located
    (hprint : n.hasSource = true → n.print s.text = .ok (window s.text n.info.start n.info.stop)) :
    placeError s n (.misuse (located s cause inner)) = .misuse (located s cause (n :: inner)) := by
  rw [placeError, located]
  by_cases hsource : n.hasSource = true
  · rw [if_pos hsource, if_pos hsource, hprint hsource]
  · rw [if_neg hsource, if_neg hsource]

/-- On its way out, an error goes on saying what is wrong. -/
theorem what_located (active : List Node) : (located s cause active).what = cause := by
  induction active with
  | nil => rfl
  | cons n inner ih =>
    rw [located]
    split
    · rw [Located.withPlace]
      split <;> exact ih
    · exact ih

/-- Nodes that are not of the source give no place. -/
theorem located_of_made (h : ∀ m ∈ inner, m.hasSource = false) :
    located s cause inner = { what := cause } := by
  induction inner with
  | nil => rfl
  | cons m rest ih =>
    have hm : ¬ m.hasSource = true := by
      rw [h m List.mem_cons_self]
      simp
    rw [located, if_neg hm]
    exact ih fun k hk => h k (List.mem_cons_of_mem m hk)

/-- A node of the source with none of the source inside it gives its place. -/
theorem located_cons_of_hasSource (hn : n.hasSource = true) (h : ∀ m ∈ inner, m.hasSource = false) :
    located s cause (n :: inner) =
      { what := cause
        fileName := some s.fileName
        nodeText := some (window s.text n.info.start n.info.stop) } := by
  rw [located, if_pos hn, located_of_made h]
  rfl

/-- The visits around a place do not change it. -/
theorem located_append (hn : n.hasSource = true) :
    located s cause (outer ++ n :: inner) = located s cause (n :: inner) := by
  induction outer with
  | nil => rfl
  | cons m outer ih =>
    rw [List.cons_append, located, ih]
    split
    · have hplace : (located s cause (n :: inner)).hasPlace = true := by
        rw [located, if_pos hn]
        exact Located.hasPlace_withPlace _ _ _
      exact if_pos hplace
    · rfl

end Located

/-! ### Errors on their way out -/

/-- If something in a list is so, there is a last thing in it that is so. -/
theorem exists_last_of_mem {α : Type} {p : α → Prop} {xs : List α} (h : ∃ x ∈ xs, p x) :
    ∃ before x after, xs = before ++ x :: after ∧ p x ∧ ∀ y ∈ after, ¬ p y := by
  induction xs with
  | nil =>
    obtain ⟨x, hx, _⟩ := h
    exact absurd hx List.not_mem_nil
  | cons a rest ih =>
    by_cases hrest : ∃ x ∈ rest, p x
    · obtain ⟨before, x, after, rfl, hx, hafter⟩ := ih hrest
      exact ⟨a :: before, x, after, rfl, hx, hafter⟩
    · obtain ⟨x, hx, hpx⟩ := h
      rcases List.mem_cons.mp hx with rfl | hx
      · exact ⟨[], x, rest, rfl, hpx, fun y hy hpy => hrest ⟨y, hy, hpy⟩⟩
      · exact absurd ⟨x, hx, hpx⟩ hrest

/-- An end of a list that is not empty ends with the last entry of the list. -/
theorem exists_eq_append_singleton {α : Type} {xs before after : List α} {x y : α}
    (h : xs ++ [x] = before ++ y :: after) : ∃ middle, y :: after = middle ++ [x] := by
  rcases after.eq_nil_or_concat with rfl | ⟨rest, z, rfl⟩
  · obtain ⟨_, hlast⟩ := List.append_inj' h rfl
    exact ⟨[], hlast.symm⟩
  · rw [List.concat_eq_append, ← List.cons_append, ← List.append_assoc] at h
    obtain ⟨_, hlast⟩ := List.append_inj' h rfl
    exact ⟨y :: rest, by rw [List.concat_eq_append, ← List.cons_append, hlast]⟩

/-- In the innermost visit under way, `cause` is found; each visit under way fails with what has
become of it up to there. -/
structure Raised (s : Setting) (fuel : Nat) (active : List Node) (cause : Cause) : Prop where
  found : ∃ top, active.getLast? = some top ∧ plan s top = .error cause
  leaves : ∀ outer m inner, active = outer ++ m :: inner →
    (visit s (fuel - outer.length) m).outcome = .error (.misuse (located s cause (m :: inner)))

/-- The visit of a node with what is wrong with itself. -/
theorem raised_singleton {s : Setting} {fuel : Nat} {n : Node} {cause : Cause}
    (hplan : plan s n = .error cause)
    (hvisit : (visit s fuel n).outcome = .error (.misuse (located s cause [n]))) :
    Raised s fuel [n] cause := by
  refine ⟨⟨n, rfl, hplan⟩, fun outer m inner hsplit => ?_⟩
  cases outer with
  | nil =>
    rw [List.nil_append, List.cons.injEq] at hsplit
    obtain ⟨rfl, rfl⟩ := hsplit
    exact hvisit
  | cons k outer => simp at hsplit

/-- The visit of a node within which another visit fails. -/
theorem Raised.cons {s : Setting} {fuel : Nat} {n : Node} {active : List Node} {cause : Cause}
    (h : Raised s fuel active cause)
    (hvisit : (visit s (fuel + 1) n).outcome = .error (.misuse (located s cause (n :: active)))) :
    Raised s (fuel + 1) (n :: active) cause := by
  obtain ⟨top, htop, hplan⟩ := h.found
  refine ⟨⟨top, by rw [List.getLast?_cons, htop]; rfl, hplan⟩, fun outer m inner hsplit => ?_⟩
  cases outer with
  | nil =>
    rw [List.nil_append, List.cons.injEq] at hsplit
    obtain ⟨rfl, rfl⟩ := hsplit
    exact hvisit
  | cons k outer =>
    rw [List.cons_append, List.cons.injEq] at hsplit
    rw [List.length_cons, Nat.add_sub_add_right]
    exact h.leaves outer m inner hsplit.2

section Raised

variable {s : Setting} {fuel : Nat} {outer inner : List Node} {n : Node} {cause : Cause}
  (h : Raised s fuel (outer ++ n :: inner) cause)
include h

/-- The error leaves the visits of made nodes without a place. -/
theorem Raised.leaves_made (hinner : ∀ m ∈ inner, m.hasSource = false) {before after : List Node}
    {m : Node} (hsplit : inner = before ++ m :: after) :
    (visit s (fuel - (outer.length + 1 + before.length)) m).outcome =
      .error (.misuse { what := cause }) := by
  have hleaves := h.leaves (outer ++ n :: before) m after (by rw [hsplit]; simp)
  have hlength : (outer ++ n :: before).length = outer.length + 1 + before.length := by
    rw [List.length_append, List.length_cons]
    omega
  have hafter : ∀ k ∈ m :: after, k.hasSource = false := fun k hk =>
    hinner k (by rw [hsplit]; exact List.mem_append_right _ hk)
  rw [hlength, located_of_made hafter] at hleaves
  exact hleaves

/-- From the visit of a node of the source on, the error stays as it is. -/
theorem Raised.leaves_placed (hn : n.hasSource = true) {before after : List Node} {m : Node}
    (hsplit : outer ++ [n] = before ++ m :: after) :
    (visit s (fuel - before.length) m).outcome =
      .error (.misuse (located s cause (n :: inner))) := by
  obtain ⟨middle, hmiddle⟩ := exists_eq_append_singleton hsplit
  have hleaves := h.leaves before m (after ++ inner) (by rw [List.append_cons, hsplit]; simp)
  rw [← List.cons_append, hmiddle, List.append_assoc, List.singleton_append,
    located_append hn] at hleaves
  exact hleaves

end Raised

end Expansion

namespace SourceTree

open Expansion Journaled

variable {s : Setting} {root : Node} (tree : SourceTree s.links root)
include tree

theorem hasSource (hwritten : root.Everywhere Written) {n : Node} (hn : n ∈ root.preorder) :
    n.hasSource = true := by
  rw [Node.hasSource, (tree.shapedAt hn).notMade]
  simpa using (hwritten n hn).started

/-- A node of the source that is visited has its stretch of the text. -/
theorem print_of_fits (hwritten : root.Everywhere Written) {fuel : Nat} {n : Node}
    (h : Fits root fuel n) (hsource : n.hasSource = true) :
    n.print s.text = .ok (window s.text n.info.start n.info.stop) := by
  rcases h.mem_or_isMade with hn | ⟨_, _, hmade, _⟩
  · exact Node.print_of_source (tree.bare n hn) (tree.shapedAt hn).notMade (hwritten n hn).started
  · simp [Node.hasSource, hmade.synthesized] at hsource

/-- Visits in turn of nodes that fit fail only by what is found in a visit under way. -/
theorem raised_of_failsFirst (hwritten : root.Everywhere Written) (fuel : Nat) :
    ∀ nodes c err, (∀ n ∈ nodes, Fits root fuel n) → FailsFirst (visit s fuel) nodes c err →
      ∃ cause, Raised s fuel (activeVisits s fuel nodes) cause ∧
        err = .misuse (located s cause (activeVisits s fuel nodes)) := by
  induction fuel with
  | zero =>
    intro nodes c err hfits hfails
    obtain ⟨before, after, rfl, _⟩ := hfails
    exact absurd (hfits c (by simp)) not_fits_zero
  | succ fuel ih =>
    intro nodes c err hfits hfails
    obtain ⟨before, after, hnodes, _, hc⟩ := id hfails
    have hcfits : Fits root (fuel + 1) c := hfits c (by rw [hnodes]; simp)
    have hprint := tree.print_of_fits hwritten hcfits
    rw [activeVisits_eq hfails]
    obtain ⟨inner, hinner, rfl⟩ := visit_eq_error_iff.mp hc
    rcases hinner with ⟨cause, hplan, rfl⟩ | ⟨planned, d, hplan, hfails'⟩
    · -- the plan itself is refused, so nothing is under way within this visit
      have hnone : activeVisits s fuel ((plan s c).toOption.getD []) = [] := by
        rw [hplan]
        exact activeVisits_nil fuel
      have hplace : placeError s c (.misuse (located s cause [])) = .misuse (located s cause [c]) :=
        placeError_located hprint
      rw [hnone]
      exact ⟨cause, raised_singleton hplan (hc.trans (congrArg _ hplace)), hplace⟩
    · have hfits' : ∀ n ∈ planned, Fits root fuel n := fun n hn =>
        tree.fits_of_plan rfl hcfits hplan hn
      obtain ⟨cause, hraised, rfl⟩ := ih planned d inner hfits' hfails'
      have hplanned : (plan s c).toOption.getD [] = planned := by
        rw [hplan]
        rfl
      have hplace : placeError s c (.misuse (located s cause (activeVisits s fuel planned))) =
          .misuse (located s cause (c :: activeVisits s fuel planned)) := placeError_located hprint
      rw [hplanned]
      exact ⟨cause, hraised.cons (hc.trans (congrArg _ hplace)), hplace⟩

/-- What is visited fits. -/
theorem fits_of_active (fuel : Nat) :
    ∀ nodes, (∀ n ∈ nodes, Fits root fuel n) → ∀ m ∈ activeVisits s fuel nodes,
      ∃ left, Fits root left m := by
  induction fuel with
  | zero =>
    intro nodes _ m hm
    exact absurd hm List.not_mem_nil
  | succ fuel ih =>
    intro nodes hfits m hm
    rw [activeVisits] at hm
    split at hm
    · exact absurd hm List.not_mem_nil
    · rename_i c hc
      have hcfits := hfits c (List.mem_of_find?_eq_some hc)
      rcases List.mem_cons.mp hm with rfl | hm
      · exact ⟨_, hcfits⟩
      · refine ih _ (fun n hn => ?_) m hm
        cases hplan : plan s c with
        | error cause =>
          rw [hplan] at hn
          exact absurd hn List.not_mem_nil
        | ok planned =>
          rw [hplan] at hn
          exact tree.fits_of_plan rfl hcfits hplan hn

end SourceTree

namespace SourceFile

open Expansion Journaled

/-- The visits that are under way when the expansion of a file fails, from the outermost to the
innermost. -/
def activeVisits (file : SourceFile) (marker reportedName : String) : List Node :=
  Expansion.activeVisits (file.setting marker reportedName)
    (visitDepth file.nodes.size file.root) file.root.children

/-- The visit of a node in the expansion of a file, within `depth` other visits. -/
def visitAt (file : SourceFile) (marker reportedName : String) (depth : Nat) (n : Node) : Visited :=
  visit (file.setting marker reportedName) (visitDepth file.nodes.size file.root - depth) n

theorem outcome_expand_eq_error_iff {file : SourceFile} {marker reportedName : String}
    {err : ExpansionError} : (file.expand marker reportedName).outcome = .error err ↔
      ∃ c, FailsFirst (file.visitAt marker reportedName 0) file.root.children c err := by
  rw [expand, outcome_bind_pure_eq_error_iff, outcome_visitChildren_eq_error_iff]
  rfl

/-- The first visit under way is that of a child of the root. -/
theorem mem_activeVisits {file : SourceFile} {marker reportedName : String} {c : Node}
    {err : ExpansionError}
    (h : FailsFirst (file.visitAt marker reportedName 0) file.root.children c err) :
    c ∈ file.activeVisits marker reportedName := by
  have hdepth : visitDepth file.nodes.size file.root ≠ 0 := by
    rw [visitDepth]
    omega
  obtain ⟨less, hless⟩ := Nat.exists_eq_succ_of_ne_zero hdepth
  have hvisit : file.visitAt marker reportedName 0 =
      visit (file.setting marker reportedName) (less + 1) := by
    funext n
    rw [visitAt, hless]
    rfl
  rw [hvisit] at h
  rw [activeVisits, hless, activeVisits_eq h]
  exact List.mem_cons_self

section Failed

variable {name : String} {text : Text} {tree : GrammarTree} {file : SourceFile}
  {marker reportedName : String} {err : ExpansionError}

/-- What is visited when the expansion of a parsed file fails, fits. -/
theorem fits_of_activeVisits (hfile : ofGrammar name text tree = .ok file) {m : Node}
    (hm : m ∈ file.activeVisits marker reportedName) : ∃ left, Fits file.root left m := by
  have hsource : SourceTree (file.setting marker reportedName).links file.root := sourceTree hfile
  exact hsource.fits_of_active _ _ (fun _ hd => SourceTree.fits_root _ hd) m hm

/-- An error that ends the expansion of a parsed file was found in a visit under way. -/
theorem exists_raised (hfile : ofGrammar name text tree = .ok file)
    (h : (file.expand marker reportedName).outcome = .error err) :
    ∃ cause, Raised (file.setting marker reportedName) (visitDepth file.nodes.size file.root)
        (file.activeVisits marker reportedName) cause ∧
      err = .misuse (located (file.setting marker reportedName) cause
        (file.activeVisits marker reportedName)) := by
  have hsource : SourceTree (file.setting marker reportedName).links file.root := sourceTree hfile
  obtain ⟨c, hc⟩ := outcome_expand_eq_error_iff.mp h
  exact hsource.raised_of_failsFirst (written hfile) _ _ c err
    (fun _ hd => SourceTree.fits_root _ hd) hc

/-- Of the nodes that are visited when the expansion of a parsed file fails, one is the innermost of
the source. -/
theorem exists_innermost (hfile : ofGrammar name text tree = .ok file)
    (h : (file.expand marker reportedName).outcome = .error err) :
    ∃ outer n inner, file.activeVisits marker reportedName = outer ++ n :: inner ∧
      n ∈ file.root.preorder ∧ n.hasSource = true ∧
      ∀ m ∈ inner, m.info.synthesized = true ∧ m.hasSource = false := by
  have htree : SourceTree (file.setting marker reportedName).links file.root := sourceTree hfile
  have hsource : ∀ {m : Node}, m ∈ file.root.preorder → m.hasSource = true :=
    htree.hasSource (written hfile)
  have hactive : ∀ m ∈ file.activeVisits marker reportedName,
      m ∈ file.root.preorder ∨ m.info.synthesized = true := by
    intro m hm
    obtain ⟨left, hleft⟩ := fits_of_activeVisits hfile hm
    exact hleft.mem_or_isMade.imp_right fun ⟨_, _, hmade, _⟩ => hmade.synthesized
  have hfirst : ∃ m ∈ file.activeVisits marker reportedName, m.hasSource = true := by
    obtain ⟨c, hc⟩ := outcome_expand_eq_error_iff.mp h
    refine ⟨c, mem_activeVisits hc, hsource ?_⟩
    obtain ⟨before, after, hnodes, _⟩ := hc
    exact Node.mem_preorder_of_mem_children (by rw [hnodes]; simp)
  obtain ⟨outer, n, inner, hsplit, hn, hinner⟩ := exists_last_of_mem hfirst
  rw [hsplit] at hactive
  refine ⟨outer, n, inner, hsplit, ?_, hn, fun m hm => ⟨?_, by simpa using hinner m hm⟩⟩
  · rcases hactive n (by simp) with hmem | hmade
    · exact hmem
    · simp [Node.hasSource, hmade] at hn
  · rcases hactive m (by simp [hm]) with hmem | hmade
    · exact absurd (hsource hmem) (hinner m hm)
    · exact hmade

end Failed

/-- An error that ends the expansion of a parsed file tells the file name and the text of the
innermost node of the source whose visit is under way when the error is found. It leaves the visits of
made nodes without a place, and from the visit of that node on it stays as it is. -/
theorem expand_error_located {name : String} {text : Text} {tree : GrammarTree} {file : SourceFile}
    (hfile : ofGrammar name text tree = .ok file) {marker reportedName : String}
    {err : ExpansionError} (h : (file.expand marker reportedName).outcome = .error err) :
    ∃ cause outer n inner, file.activeVisits marker reportedName = outer ++ n :: inner ∧
      n ∈ file.root.preorder ∧ n.hasSource = true ∧ (∀ m ∈ inner, m.info.synthesized = true) ∧
      (∃ top, (n :: inner).getLast? = some top ∧
        plan (file.setting marker reportedName) top = .error cause) ∧
      err = .misuse
        { what := cause
          fileName := some (if reportedName = "" then file.fileName else reportedName)
          nodeText := some (window file.text n.info.start n.info.stop) } ∧
      (∀ before m after, inner = before ++ m :: after →
        (file.visitAt marker reportedName (outer.length + 1 + before.length) m).outcome =
          .error (.misuse { what := cause })) ∧
      ∀ before m after, outer ++ [n] = before ++ m :: after →
        (file.visitAt marker reportedName before.length m).outcome = .error err := by
  obtain ⟨cause, hraised, rfl⟩ := exists_raised hfile h
  obtain ⟨outer, n, inner, hsplit, hmem, hn, hinner⟩ := exists_innermost hfile h
  rw [hsplit] at hraised ⊢
  have hbare : ∀ m ∈ inner, m.hasSource = false := fun m hm => (hinner m hm).2
  obtain ⟨top, htop, hplan⟩ := hraised.found
  refine ⟨cause, outer, n, inner, rfl, hmem, hn, fun m hm => (hinner m hm).1, ⟨top, ?_, hplan⟩, ?_,
    ?_, ?_⟩
  · rwa [List.getLast?_append_of_ne_nil _ (by simp)] at htop
  · rw [located_append hn, located_cons_of_hasSource hn hbare]
    rfl
  · intro before m after hin
    exact hraised.leaves_made hbare hin
  · intro before m after hout
    rw [located_append hn]
    exact hraised.leaves_placed hn hout

end SourceFile

/-! ### A page with an error -/

namespace OrphanPage

open SmallPage

/-- An `<If>` whose `<Else>` begins with an `<Else>`. -/
def text : Text := "<><If condition={x}>A</If><Else><Else>y</Else></Else></>".toList

def tree : GrammarTree where
  root := .mk "program" 0 56 true none
    [element 0 2 53 56 []
      [element 2 20 21 26
          [leaf "identifier" 3 5 (some "name"), SmallPage.condition "identifier" 6 19]
          [leaf "jsx_text" 20 21 none],
        element 26 32 46 53 [leaf "identifier" 27 31 (some "name")]
          [element 32 38 39 46 [leaf "identifier" 33 37 (some "name")]
            [leaf "jsx_text" 38 39 none]]]]

/-- The second `<Else>` is found in the visit of a made fragment, and reported at the `<If>`. -/
theorem exists_error : ∃ file, SourceFile.ofGrammar "page.tsx" text tree = .ok file ∧
    (file.expand "m" "").outcome = .error (.misuse
      { what := .elseWithoutIf
        fileName := some "page.tsx"
        nodeText := some "<If condition={x}>A</If>".toList }) := by
  have hsome : ((SourceFile.ofGrammar "page.tsx" text tree).toOption.filter fun file =>
      match (file.expand "m" "").outcome with
      | .ok _ => false
      | .error err => err = .misuse
          { what := .elseWithoutIf
            fileName := some "page.tsx"
            nodeText := some "<If condition={x}>A</If>".toList }).isSome = true := by
    rw [SourceFile.ofGrammar, Node.ofGrammar_eq, Conversion.convert_eq,
      Conversion.convert_eq_repeat text 7]
    decide +kernel
  obtain ⟨file, hfile⟩ := Option.isSome_iff_exists.mp hsome
  obtain ⟨hfile, herr⟩ := Option.filter_eq_some_iff.mp hfile
  refine ⟨file, toOption_eq_some_iff.mp hfile, ?_⟩
  split at herr
  · cases herr
  · rename_i err houtcome
    rw [houtcome, of_decide_eq_true herr]

end OrphanPage

/-- The error that ends the expansion of the page tells the text of the `<If>`, which belongs to its
tree. -/
theorem SourceFile.expand_error_located_orphanPage :
    ∃ file err n, ofGrammar "page.tsx" OrphanPage.text OrphanPage.tree = .ok file ∧
      (file.expand "m" "").outcome = .error err ∧ n ∈ file.root.preorder ∧
      window file.text n.info.start n.info.stop = "<If condition={x}>A</If>".toList := by
  obtain ⟨file, hfile, hexpand⟩ := OrphanPage.exists_error
  obtain ⟨_, _, n, _, _, hn, _, _, _, herr, _⟩ := expand_error_located hfile hexpand
  simp only [ExpansionError.misuse.injEq, Located.mk.injEq, Option.some.injEq] at herr
  exact ⟨file, _, n, hfile, hexpand, hn, herr.2.2.symm⟩

end CondMarkup
