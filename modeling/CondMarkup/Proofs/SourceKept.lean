import CondMarkup.Proofs.InPlace
import CondMarkup.Proofs.Success

/-!
The source is never edited. The expansion of a parsed file on a store that holds its tree comes to the
expanded file, and at every moment of it, also if it ends with an error, all nodes of the source are
as they were. What it writes, it writes to nodes that were made on the way.
-/

namespace CondMarkup

open Store Expansion

/-- The actions leave the nodes of a store alone. -/
structure LeavesAlone (source : Store) (actions : List Action) : Prop where
  /-- At any moment the first nodes are as they were. -/
  unchanged : ∀ before after, actions = before ++ after → ∀ i < source.nodes.size,
    (source.performAll before).nodes[i]? = source.nodes[i]?
  /-- An origin is written to a node only if the node was made on the way. -/
  written : ∀ before target origin after, actions = before ++ .setOrigin target origin :: after →
    source.nodes.size ≤ target ∧ target < (source.performAll before).nodes.size
  /-- A copy has, at any later moment, the parent that the node has of which it is a copy. -/
  copied : ∀ before old children later after,
    actions = before ++ .copy old children :: (later ++ after) →
    ∃ n copy, (source.performAll before).nodes[old]? = some n ∧
      (source.performAll (before ++ .copy old children :: later)).nodes[
        (source.performAll before).nodes.size]? = some copy ∧
      copy.parent = n.parent ∧ copy.info = n.info

/-- Allowed actions leave the source alone. -/
theorem AllAllowed.leavesAlone {source : Store} {actions : List Action}
    (h : AllAllowed source.nodes.size source actions) (hordered : Ordered source.nodes.size source) :
    LeavesAlone source actions where
  unchanged := by
    intro before after hsplit i hi
    rw [hsplit, allAllowed_append] at h
    exact h.1.sameBelow hordered i hi
  written := by
    intro before target origin after hsplit
    rw [hsplit, allAllowed_append] at h
    obtain ⟨hknown, htarget, _⟩ := h.2.1
    exact ⟨hknown, htarget⟩
  copied := by
    intro before old children later after hsplit
    rw [hsplit, allAllowed_append] at h
    obtain ⟨hold, _⟩ := h.2.1
    rw [performAll_append]
    exact exists_copy hold children later

/-! ### The store of a file -/

/-- The identities of nodes that have one. -/
theorem forall₂_ids {R : NodeId → Node → Prop} {cs : List Node}
    (h : ∀ c ∈ cs, ∃ i, c.id = some i ∧ R i c) : List.Forall₂ R (cs.filterMap Node.id) cs := by
  induction cs with
  | nil => exact .nil
  | cons c rest ih =>
    obtain ⟨i, hid, hc⟩ := h c List.mem_cons_self
    rw [List.filterMap_cons_some hid]
    exact .cons hc (ih fun d hd => h d (List.mem_cons_of_mem c hd))

namespace SourceFile

variable {name : String} {text : Text} {tree : GrammarTree} {file : SourceFile}

/-- The store of the nodes of a file. -/
def store (file : SourceFile) : Store := Store.ofRoot file.root

theorem size_store (file : SourceFile) : file.store.nodes.size = file.root.size := by
  rw [store, Store.ofRoot, List.size_toArray, List.length_map, Node.length_preorder]

theorem exists_getElem?_store (hfile : ofGrammar name text tree = .ok file) {n : Node}
    (hn : n ∈ file.root.preorder) : ∃ i, n.id = some i ∧ file.store.nodes[i]? =
      some { info := n.info, parent := n.parent, children := n.children.filterMap Node.id } := by
  obtain ⟨i, hid, hlink⟩ := (sourceTree hfile).found n hn
  obtain ⟨m, _, rfl⟩ := ofGrammar_eq_ok hfile
  refine ⟨i, hid, ?_⟩
  rw [links, ofRoot, List.getElem?_toArray] at hlink
  rw [store, Store.ofRoot, List.getElem?_toArray, List.getElem?_map]
  exact congrArg (Option.map _) hlink

/-- Every node of the file is read from its store as it is. -/
theorem unfold_store (hfile : ofGrammar name text tree = .ok file) (n : Node) :
    n ∈ file.root.preorder → ∀ depth, n.size ≤ depth →
      ∃ i, n.id = some i ∧ file.store.unfold depth i = some n := by
  have hsource := sourceTree hfile
  induction n using Node.treeInduction with
  | step n ih =>
    intro hn depth hdepth
    obtain ⟨less, rfl⟩ : ∃ less, depth = less + 1 := ⟨depth - 1, by have := n.size_pos; omega⟩
    obtain ⟨i, hid, hstored⟩ := exists_getElem?_store hfile hn
    have hchildren : List.Forall₂ (fun j c => file.store.unfold less j = some c)
        (n.children.filterMap Node.id) n.children := by
      apply forall₂_ids
      intro c hc
      have hlt := Node.size_lt_of_mem_children hc
      exact ih c hc (Node.child_mem_preorder hc hn) less (by omega)
    refine ⟨i, hid, unfold_succ_eq_some_iff.mpr ⟨_, none, n.children, hstored, .none, hchildren, ?_⟩⟩
    have horigin := hsource.bare n hn
    cases n with
    | mk id parent origin info children =>
      obtain rfl : id = some i := hid
      obtain rfl : origin = none := horigin
      rfl

/-- The nodes of the store of a file are those of its tree. -/
theorem exists_of_getElem?_store {i : NodeId} {stored : StoredNode}
    (h : file.store.nodes[i]? = some stored) : ∃ n ∈ file.root.preorder,
      stored = { info := n.info, parent := n.parent, children := n.children.filterMap Node.id } := by
  rw [store, Store.ofRoot, List.getElem?_toArray, List.getElem?_map] at h
  obtain ⟨n, hn, rfl⟩ := Option.map_eq_some_iff.mp h
  exact ⟨n, List.mem_of_getElem? hn, rfl⟩

/-- The store of a file contains its tree. -/
theorem contains_store (hfile : ofGrammar name text tree = .ok file) :
    Contains file.store.nodes.size file.root file.store where
  ordered := by
    refine ⟨Nat.le_refl _, ?_, ?_⟩
    · intro i _ stored hstored j hj
      obtain ⟨n, hn, rfl⟩ := exists_of_getElem?_store hstored
      obtain ⟨c, hc, hid⟩ := List.mem_filterMap.mp hj
      obtain ⟨k, hk, hget⟩ := exists_getElem?_store hfile (Node.child_mem_preorder hc hn)
      rw [Option.some.inj (hid.symm.trans hk)]
      exact lt_size_of_getElem? hget
    · intro i stored hstored hi
      exact absurd (lt_size_of_getElem? hstored) (Nat.not_lt.mpr hi)
  source := by
    intro n hn
    obtain ⟨i, hid, hunfold⟩ :=
      unfold_store hfile n hn file.root.size (Node.size_le_of_mem_preorder hn)
    obtain ⟨j, hj, hget⟩ := exists_getElem?_store hfile hn
    obtain rfl : i = j := Option.some.inj (hid.symm.trans hj)
    rw [size_store]
    refine ⟨i, ?_, hid, hunfold⟩
    have hlt := lt_size_of_getElem? hget
    rwa [size_store] at hlt

/-- The expansion of a file on its store does what the expansion of the file does. -/
theorem refines_expandOnStore (hfile : ofGrammar name text tree = .ok file)
    (marker reportedName : String) :
    Refines file.store.nodes.size file.store.nodes.size file.store
      (file.expandOnStore marker reportedName) (file.expand marker reportedName)
      fun s i out => Holds file.store.nodes.size s i out.root := by
  have hsource : SourceTree (file.setting marker reportedName).links file.root := sourceTree hfile
  have hcontains := contains_store hfile
  obtain ⟨i, _, hid, hholds⟩ := hsource.holds_source hcontains (Node.self_mem_preorder file.root)
  have hvisits : ∀ c ∈ file.root.children, VisitRefines file.store.nodes.size file.root
      (InPlace.visit (file.setting marker reportedName) (visitDepth file.nodes.size file.root))
      (visit (file.setting marker reportedName) (visitDepth file.nodes.size file.root)) c :=
    fun c hc => hsource.visitRefines rfl _ c (SourceTree.fits_root _ hc)
  rw [expandOnStore, expand]
  refine refines_of_silent (OnStore.identity_of_id hid _) ?_
  have hchildren := refines_visitChildren hcontains hholds hvisits
  rw [← bind_pure (InPlace.visitChildren _ i)]
  apply hchildren.bind hcontains.ordered (Nat.le_refl _)
  intro s j change hs _ hsame hsize _ hresult
  have hafter := hholds.later hcontains.ordered ⟨hsame, hsize⟩
  have hfresh := hresult.fresh_result ⟨Nat.zero_le _, hafter⟩ (Nat.zero_le _)
  exact refines_pure hfresh.2

/-- The expansion of a parsed file on a store of its nodes tells the same steps as the expansion of
the file and comes to the same tree or the same error. All the way, and if there is an error up to
that, the nodes of the source are as they were, with no origin; an origin is written only to a node
that was made on the way, and a copy has the parent of what it is a copy of. -/
theorem expandOnStore_leaves_source (hfile : ofGrammar name text tree = .ok file)
    (marker reportedName : String) :
    let run := file.expandOnStore marker reportedName file.store
    let expansion := file.expand marker reportedName
    run.journal.filterMap Action.step? = expansion.journal ∧
    SameOutcome
      (fun i out => Holds file.store.nodes.size (file.store.performAll run.journal) i out.root)
      run.outcome expansion.outcome ∧
    LeavesAlone file.store run.journal ∧
    ∀ before after, run.journal = before ++ after → ∀ n ∈ file.root.preorder,
      n.origin = none ∧ ∃ i, n.id = some i ∧ (file.store.performAll before).node? i = some n := by
  have hcontains := contains_store hfile
  have hrefines := refines_expandOnStore hfile marker reportedName
  refine ⟨hrefines.steps, hrefines.outcome, hrefines.allowed.leavesAlone hcontains.ordered, ?_⟩
  intro before after hsplit n hn
  have hallowed := hrefines.allowed
  rw [hsplit, allAllowed_append] at hallowed
  have hthen := hcontains.of_same (hallowed.1.ordered hcontains.ordered)
    (hallowed.1.sameBelow hcontains.ordered)
  obtain ⟨i, _, hid, hunfold⟩ := hthen.source n hn
  exact ⟨(sourceTree hfile).bare n hn, i, hid, unfold_mono hunfold hthen.ordered.size⟩

end SourceFile

/-- The expansion of the small page writes five origins: one for each of its ternaries, and one for
each of their three branches that are fragments. -/
theorem SmallPage.exists_written : ∃ file, SourceFile.ofGrammar "page.tsx" text tree = .ok file ∧
    (file.expandOnStore "m" "" file.store).journal.countP Action.isWrite = 5 := by
  have hsome : ((SourceFile.ofGrammar "page.tsx" text tree).toOption.filter fun file =>
      (file.expandOnStore "m" "" file.store).journal.countP Action.isWrite = 5).isSome = true := by
    rw [SourceFile.ofGrammar, Node.ofGrammar_eq, Conversion.convert_eq,
      Conversion.convert_eq_repeat text 7]
    decide +kernel
  obtain ⟨file, hfile⟩ := Option.isSome_iff_exists.mp hsome
  obtain ⟨hfile, hcount⟩ := Option.filter_eq_some_iff.mp hfile
  exact ⟨file, toOption_eq_some_iff.mp hfile, of_decide_eq_true hcount⟩

/-- Five origins are written, and none of them to a node of the page. -/
theorem SourceFile.expandOnStore_leaves_source_smallPage :
    ∃ file, ofGrammar "page.tsx" SmallPage.text SmallPage.tree = .ok file ∧
      (file.expandOnStore "m" "" file.store).journal.countP Action.isWrite = 5 ∧
      LeavesAlone file.store (file.expandOnStore "m" "" file.store).journal := by
  obtain ⟨file, hfile, hcount⟩ := SmallPage.exists_written
  obtain ⟨_, _, halone, _⟩ := SourceFile.expandOnStore_leaves_source hfile "m" ""
  exact ⟨file, hfile, hcount, halone⟩

end CondMarkup
