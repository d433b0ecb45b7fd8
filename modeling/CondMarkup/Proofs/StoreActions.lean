import CondMarkup.Proofs.StoreReads

/-!
What actions do to a store. An action is allowed if it makes a node that refers to nodes that are
there, or writes the origin of a node that is not of the source. Allowed actions leave the source
alone, and of the nodes that were made they change nothing but origins. What is made reads as it
should.
-/

namespace CondMarkup

open Store

/-- An action that leaves the source alone, where the source are the nodes below `known`. -/
def Action.Allowed (known : Nat) (s : Store) : Action → Prop
  | .tell _ => True
  | .make _ children => ∀ c ∈ children, c < s.nodes.size
  | .copy old children => old < s.nodes.size ∧ ∀ c ∈ children, c < s.nodes.size
  | .setOrigin target origin => known ≤ target ∧ target < s.nodes.size ∧ origin < known

/-- Actions each of which is allowed when it is its turn. -/
def AllAllowed (known : Nat) : Store → List Action → Prop
  | _, [] => True
  | s, action :: rest => action.Allowed known s ∧ AllAllowed known (s.perform action) rest

section Actions

variable {known : Nat} {s s' : Store} {stored : StoredNode}

/-! ### A node more -/

theorem sameBelow_push (hpush : s'.nodes = s.nodes.push stored) : SameBelow s.nodes.size s s' := by
  intro i hi
  rw [hpush, Array.getElem?_push_lt hi, Array.getElem?_eq_getElem hi]

theorem ordered_push (h : Ordered known s) (hpush : s'.nodes = s.nodes.push stored)
    (hrefs : ∀ j ∈ stored.refs, j < s.nodes.size) : Ordered known s' := by
  have hsame := sameBelow_push hpush
  refine ⟨?_, fun i hi n hn => ?_, fun i n hn hi => ?_⟩
  · rw [hpush, Array.size_push]
    exact Nat.le_succ_of_le h.size
  · rw [hsame i (Nat.lt_of_lt_of_le hi h.size)] at hn
    exact h.source i hi n hn
  · rw [hpush, Array.getElem?_push] at hn
    split at hn
    · rename_i heq
      rw [← Option.some.inj hn, heq]
      exact hrefs
    · exact h.later i n hn hi

/-- A node that is put into the store reads as itself with what it refers to. -/
theorem holds_push {origin : Option Node} {children : List Node}
    (hordered : Ordered known s) (hpush : s'.nodes = s.nodes.push stored)
    (horigin : Option.Rel (Holds known s) stored.origin origin)
    (hchildren : List.Forall₂ (Holds known s) stored.children children) :
    Holds known s' s.nodes.size (.mk none stored.parent origin stored.info children) := by
  have hsame := sameBelow_push hpush
  have hkeep : ∀ c m, Holds known s c m → HoldsAt known s' s.nodes.size c m := fun c m hc =>
    HoldsAt.of_same hc hordered hordered.size hsame hc.lt_size
  have hsize : s'.nodes.size = s.nodes.size + 1 := by rw [hpush, Array.size_push]
  rw [Holds, hsize, holdsAt_succ_iff]
  refine ⟨stored, origin, children, ?_, relOption_imp hkeep horigin, hchildren.imp hkeep, ?_⟩
  · rw [hpush, Array.getElem?_push_size]
  · rw [Option.filter_some, if_neg (by simpa using hordered.size)]

/-! ### A write -/

theorem getElem?_setOrigin (s : Store) (target origin i : NodeId) :
    (s.setOrigin target origin).nodes[i]? =
      if target = i then s.nodes[i]?.map fun n => { n with origin := some origin }
      else s.nodes[i]? := by
  rw [setOrigin, Store.modify, Array.getElem?_modify]

theorem sameBelow_setOrigin (s : Store) (target origin : NodeId) :
    SameBelow target s (s.setOrigin target origin) := by
  intro i hi
  rw [getElem?_setOrigin, if_neg (Nat.ne_of_gt hi)]

theorem ordered_setOrigin {target origin : NodeId} (h : Ordered known s) (htarget : known ≤ target)
    (horigin : origin < known) : Ordered known (s.setOrigin target origin) := by
  have hsame := sameBelow_setOrigin s target origin
  refine ⟨?_, fun i hi n hn => ?_, fun i n hn hi j hj => ?_⟩
  · rw [setOrigin, size_modify]
    exact h.size
  · rw [hsame i (Nat.lt_of_lt_of_le hi htarget)] at hn
    exact h.source i hi n hn
  · rw [getElem?_setOrigin] at hn
    split at hn
    · obtain ⟨old, hold, rfl⟩ := Option.map_eq_some_iff.mp hn
      rcases List.mem_append.mp hj with hj | hj
      · obtain rfl : j = origin := by simpa using hj
        exact Nat.lt_of_lt_of_le horigin hi
      · exact h.later i old hold hi j (List.mem_append_right _ hj)
    · exact h.later i n hn hi j hj

/-- A node whose origin is written reads as it did, with that origin. -/
theorem holds_setOrigin {target origin : Nat} {p q : Node} (hordered : Ordered known s)
    (htarget : known ≤ target) (horigin : origin < known) (h : Holds known s target p)
    (hq : HoldsAt known s known origin q) :
    Holds known (s.setOrigin target origin) target (p.withOrigin q) := by
  have hlt : target < s.nodes.size := h.lt_size
  have hsame := sameBelow_setOrigin s target origin
  have hsize : (s.setOrigin target origin).nodes.size = s.nodes.size := by rw [setOrigin, size_modify]
  obtain ⟨less, hless⟩ : ∃ less, s.nodes.size = less + 1 := ⟨s.nodes.size - 1, by omega⟩
  rw [Holds, hless] at h
  obtain ⟨stored, old, children, hstored, _, hchildren, rfl⟩ := holdsAt_succ_iff.mp h
  rw [Holds, hsize, hless, holdsAt_succ_iff]
  refine ⟨{ stored with origin := some origin }, some q, children, ?_, .some ?_, ?_, rfl⟩
  · rw [getElem?_setOrigin, if_pos rfl, hstored]
    rfl
  · exact (hq.of_same hordered htarget hsame (Nat.lt_of_lt_of_le horigin htarget)).mono (by omega)
  · -- a child comes before the node, so it is not the one that is written to
    have hbefore : ∀ c ∈ stored.children, c < target := fun c hc =>
      hordered.later target stored hstored htarget c (List.mem_append_right _ hc)
    refine ((List.forall₂_and_left _ _).mpr ⟨hbefore, hchildren⟩).imp fun c m hc => ?_
    exact hc.2.of_same hordered htarget hsame hc.1

/-! ### Actions that are allowed -/

theorem size_le_perform (s : Store) (action : Action) :
    s.nodes.size ≤ (s.perform action).nodes.size := by
  cases action with
  | tell step => exact Nat.le_refl _
  | make info children =>
    rw [perform, size_insert]
    exact Nat.le_succ _
  | copy old children =>
    rw [perform]
    split
    · exact Nat.le_refl _
    · rw [size_insert]
      exact Nat.le_succ _
  | setOrigin target origin => exact Nat.le_of_eq (size_modify s target _).symm

/-- The source stays as it is. -/
theorem Action.Allowed.sameBelow {action : Action} (h : action.Allowed known s)
    (hsize : known ≤ s.nodes.size) : SameBelow known s (s.perform action) := by
  cases action with
  | tell step => exact .refl known s
  | make info children => exact (sameBelow_push rfl).mono hsize
  | copy old children =>
    rw [perform]
    split
    · exact .refl known s
    · exact (sameBelow_push rfl).mono hsize
  | setOrigin target origin => exact (sameBelow_setOrigin s target origin).mono h.1

theorem Action.Allowed.ordered {action : Action} (h : action.Allowed known s) (hs : Ordered known s) :
    Ordered known (s.perform action) := by
  cases action with
  | tell step => exact hs
  | make info children =>
    refine ordered_push hs rfl fun j hj => ?_
    exact h j (by simpa [StoredNode.refs] using hj)
  | copy old children =>
    rw [perform]
    split
    · exact hs
    · refine ordered_push hs rfl fun j hj => ?_
      rcases List.mem_append.mp hj with hj | hj
      · obtain rfl : j = old := by simpa using hj
        exact h.1
      · exact h.2 j hj
  | setOrigin target origin => exact ordered_setOrigin hs h.1 h.2.2

theorem allAllowed_append {s : Store} {as bs : List Action} :
    AllAllowed known s (as ++ bs) ↔
      AllAllowed known s as ∧ AllAllowed known (s.performAll as) bs := by
  induction as generalizing s with
  | nil => simp [AllAllowed]
  | cons a as ih => rw [List.cons_append, AllAllowed, AllAllowed, ih, and_assoc, performAll_cons]

theorem size_le_performAll (actions : List Action) (s : Store) :
    s.nodes.size ≤ (s.performAll actions).nodes.size := by
  induction actions generalizing s with
  | nil => exact Nat.le_refl _
  | cons a rest ih => exact Nat.le_trans (size_le_perform s a) (ih (s.perform a))

theorem AllAllowed.ordered {actions : List Action} {s : Store} (h : AllAllowed known s actions)
    (hs : Ordered known s) : Ordered known (s.performAll actions) := by
  induction actions generalizing s with
  | nil => exact hs
  | cons a rest ih => exact ih h.2 (h.1.ordered hs)

/-- Allowed actions leave the source as it is. -/
theorem AllAllowed.sameBelow {actions : List Action} {s : Store} (h : AllAllowed known s actions)
    (hs : Ordered known s) : SameBelow known s (s.performAll actions) := by
  induction actions generalizing s with
  | nil => exact .refl known s
  | cons a rest ih => exact (h.1.sameBelow hs.size).trans (ih h.2 (h.1.ordered hs))

/-- A copy is put at the end of the store. -/
theorem nodes_copy {old : NodeId} {n : StoredNode} (hold : s.nodes[old]? = some n)
    (children : List NodeId) : (s.perform (.copy old children)).nodes =
      s.nodes.push { n with origin := some old, children } := by
  rw [perform, hold]
  rfl

/-! ### What is never written -/

/-- A node apart from its origin. -/
def StoredNode.bare (n : StoredNode) : StoredNode := { n with origin := none }

/-- Of a node that is there, no action changes anything but the origin. -/
theorem bare_perform (s : Store) (action : Action) {i : NodeId} (hi : i < s.nodes.size) :
    (s.perform action).nodes[i]?.map StoredNode.bare = s.nodes[i]?.map StoredNode.bare := by
  cases action with
  | tell step => rfl
  | make info children => rw [perform, getElem?_insert_of_lt s _ hi]
  | copy old children =>
    rw [perform]
    split
    · rfl
    · rw [getElem?_insert_of_lt s _ hi]
  | setOrigin target origin =>
    rw [perform, getElem?_setOrigin]
    split
    · rw [Option.map_map]
      rfl
    · rfl

theorem bare_performAll (actions : List Action) (s : Store) {i : NodeId} (hi : i < s.nodes.size) :
    (s.performAll actions).nodes[i]?.map StoredNode.bare = s.nodes[i]?.map StoredNode.bare := by
  induction actions generalizing s with
  | nil => rfl
  | cons a rest ih =>
    rw [performAll_cons, ih (s.perform a) (Nat.lt_of_lt_of_le hi (size_le_perform s a)),
      bare_perform s a hi]

/-- A copy has, then and later, the parent of what it is a copy of. -/
theorem exists_copy {old : NodeId} (hold : old < s.nodes.size) (children : List NodeId)
    (later : List Action) :
    ∃ n copy, s.nodes[old]? = some n ∧
      (s.performAll (.copy old children :: later)).nodes[s.nodes.size]? = some copy ∧
      copy.parent = n.parent ∧ copy.info = n.info := by
  have hn := Array.getElem?_eq_getElem hold
  have hpush := nodes_copy hn children
  have hthere : s.nodes.size < (s.perform (.copy old children)).nodes.size := by
    rw [hpush, Array.size_push]
    exact Nat.lt_succ_self _
  have hbare := bare_performAll later _ hthere
  rw [hpush, Array.getElem?_push_size, Option.map_some] at hbare
  obtain ⟨copy, hcopy, hsame⟩ := Option.map_eq_some_iff.mp hbare
  have hparent : copy.bare.parent = s.nodes[old].parent := by rw [hsame]; rfl
  have hinfo : copy.bare.info = s.nodes[old].info := by rw [hsame]; rfl
  exact ⟨s.nodes[old], copy, hn, hcopy, hparent, hinfo⟩

end Actions

end CondMarkup
