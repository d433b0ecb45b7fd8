import Mathlib.Data.List.Forall2
import CondMarkup.Expansion.InPlace
import CondMarkup.Proofs.Failure
import CondMarkup.Proofs.Forget

/-!
Reading nodes from a store. The first nodes of the store, those below a number `known`, are the
source; the others were made later and refer to earlier nodes only. So a node is not changed by what
happens to later nodes. `Holds known s i p` says that the node `i` of the store reads as `p` if the
identities of nodes that were made later are left out.
-/

namespace CondMarkup

/-! ### Unfolding -/

theorem mapM_eq_some_iff {α β : Type} {f : α → Option β} {as : List α} {bs : List β} :
    as.mapM f = some bs ↔ List.Forall₂ (fun a b => f a = some b) as bs := by
  induction as generalizing bs with
  | nil =>
    rw [List.mapM_nil, List.forall₂_nil_left_iff]
    exact ⟨fun h => (Option.some.inj h).symm, fun h => h ▸ rfl⟩
  | cons a rest ih =>
    rw [List.mapM_cons, List.forall₂_cons_left_iff]
    constructor
    · intro h
      obtain ⟨b, hb, h⟩ := Option.bind_eq_some_iff.mp h
      obtain ⟨others, hothers, h⟩ := Option.bind_eq_some_iff.mp h
      exact ⟨b, others, hb, ih.mp hothers, (Option.some.inj h).symm⟩
    · rintro ⟨b, others, hb, hothers, rfl⟩
      refine Option.bind_eq_some_iff.mpr ⟨b, hb, ?_⟩
      exact Option.bind_eq_some_iff.mpr ⟨others, ih.mpr hothers, rfl⟩

section Relations

variable {α β γ : Type} {P : α → β → Prop} {f : β → γ}

theorem relOption_imp {Q : α → β → Prop} (h : ∀ a b, P a b → Q a b) {x : Option α} {y : Option β}
    (hxy : Option.Rel P x y) : Option.Rel Q x y := by
  cases hxy with
  | some hab => exact .some (h _ _ hab)
  | none => exact .none

theorem relOption_exists_iff {x : Option α} {z : Option γ} :
    Option.Rel (fun a c => ∃ b, P a b ∧ f b = c) x z ↔ ∃ y, Option.Rel P x y ∧ y.map f = z := by
  constructor
  · intro h
    cases h with
    | none => exact ⟨none, .none, rfl⟩
    | some hac =>
      obtain ⟨b, hb, rfl⟩ := hac
      exact ⟨some b, .some hb, rfl⟩
  · rintro ⟨y, hy, rfl⟩
    cases hy with
    | none => exact .none
    | some hb => exact .some ⟨_, hb, rfl⟩

theorem forall₂_exists_iff {as : List α} {cs : List γ} :
    List.Forall₂ (fun a c => ∃ b, P a b ∧ f b = c) as cs ↔
      ∃ bs, List.Forall₂ P as bs ∧ bs.map f = cs := by
  constructor
  · intro h
    induction h with
    | nil => exact ⟨[], .nil, rfl⟩
    | cons hac _ ih =>
      obtain ⟨b, hb, rfl⟩ := hac
      obtain ⟨bs, hbs, rfl⟩ := ih
      exact ⟨b :: bs, .cons hb hbs, rfl⟩
  · rintro ⟨bs, hbs, rfl⟩
    rw [List.forall₂_map_right_iff]
    exact hbs.imp fun a b hab => ⟨b, hab, rfl⟩

theorem exists_of_forall₂ {as : List α} {bs : List β} (h : List.Forall₂ P as bs) {a : α}
    (ha : a ∈ as) : ∃ b ∈ bs, P a b := by
  induction h with
  | nil => exact absurd ha List.not_mem_nil
  | cons hab _ ih =>
    rcases List.mem_cons.mp ha with rfl | ha
    · exact ⟨_, List.mem_cons_self, hab⟩
    · obtain ⟨b, hb, hP⟩ := ih ha
      exact ⟨b, List.mem_cons_of_mem _ hb, hP⟩

end Relations

/-- The nodes that a stored node refers to. -/
def StoredNode.refs (n : StoredNode) : List NodeId := n.origin.toList ++ n.children

namespace Store

variable {s s' : Store} {k depth : Nat} {i : NodeId} {n : Node}

/-- What the origin of a node unfolds to, if it has one. -/
def unfoldOrigin (s : Store) (depth : Nat) : Option NodeId → Option (Option Node)
  | none => some none
  | some o => (s.unfold depth o).map some

theorem unfold_succ (s : Store) (depth : Nat) (i : NodeId) : s.unfold (depth + 1) i =
    s.nodes[i]?.bind fun stored => (s.unfoldOrigin depth stored.origin).bind fun origin =>
      (stored.children.mapM (s.unfold depth)).bind fun children =>
        some (.mk (some i) stored.parent origin stored.info children) := by
  rw [unfold]
  cases s.nodes[i]? with
  | none => rfl
  | some stored =>
    obtain ⟨info, parent, origin, children⟩ := stored
    cases origin <;> rfl

theorem unfoldOrigin_eq_some_iff {o : Option NodeId} {origin : Option Node} :
    s.unfoldOrigin depth o = some origin ↔
      Option.Rel (fun o m => s.unfold depth o = some m) o origin := by
  cases o with
  | none =>
    constructor
    · intro h
      cases h
      exact .none
    · intro h
      cases h
      rfl
  | some o =>
    rw [unfoldOrigin, Option.map_eq_some_iff]
    constructor
    · rintro ⟨m, hm, rfl⟩
      exact .some hm
    · intro h
      cases h with
      | some hm => exact ⟨_, hm, rfl⟩

/-- What a node unfolds to: itself with what its origin and its children unfold to. -/
theorem unfold_succ_eq_some_iff : s.unfold (depth + 1) i = some n ↔
    ∃ stored origin children, s.nodes[i]? = some stored ∧
      Option.Rel (fun o m => s.unfold depth o = some m) stored.origin origin ∧
      List.Forall₂ (fun c m => s.unfold depth c = some m) stored.children children ∧
      n = .mk (some i) stored.parent origin stored.info children := by
  simp only [unfold_succ, Option.bind_eq_some_iff, mapM_eq_some_iff, unfoldOrigin_eq_some_iff,
    Option.some.injEq]
  constructor
  · rintro ⟨stored, hstored, origin, horigin, children, hchildren, rfl⟩
    exact ⟨stored, origin, children, hstored, horigin, hchildren, rfl⟩
  · rintro ⟨stored, origin, children, hstored, horigin, hchildren, rfl⟩
    exact ⟨stored, hstored, origin, horigin, children, hchildren, rfl⟩

/-- What unfolds in a number of steps unfolds in more. -/
theorem unfold_mono : ∀ {depth : Nat} {i : NodeId} {n : Node}, s.unfold depth i = some n →
    ∀ {more : Nat}, depth ≤ more → s.unfold more i = some n := by
  intro depth
  induction depth with
  | zero =>
    intro i n h
    cases h
  | succ depth ih =>
    intro i n h more hmore
    obtain ⟨less, rfl⟩ : ∃ less, more = less + 1 := ⟨more - 1, by omega⟩
    obtain ⟨stored, origin, children, hstored, horigin, hchildren, rfl⟩ :=
      unfold_succ_eq_some_iff.mp h
    refine unfold_succ_eq_some_iff.mpr ⟨stored, origin, children, hstored, ?_, ?_, rfl⟩
    · exact relOption_imp (fun o m ho => ih ho (by omega)) horigin
    · exact hchildren.imp fun c m hc => ih hc (by omega)

/-- The nodes below `k` are the same in both stores. -/
def SameBelow (k : Nat) (s s' : Store) : Prop := ∀ i < k, s'.nodes[i]? = s.nodes[i]?

/-- The nodes below `k` refer to nodes below `k`. -/
def ClosedBelow (k : Nat) (s : Store) : Prop :=
  ∀ i < k, ∀ stored, s.nodes[i]? = some stored → ∀ j ∈ stored.refs, j < k

theorem SameBelow.refl (k : Nat) (s : Store) : SameBelow k s s := fun _ _ => rfl

theorem SameBelow.trans {s'' : Store} (h : SameBelow k s s') (h' : SameBelow k s' s'') :
    SameBelow k s s'' := fun i hi => (h' i hi).trans (h i hi)

theorem SameBelow.mono {l : Nat} (h : SameBelow k s s') (hl : l ≤ k) : SameBelow l s s' :=
  fun i hi => h i (Nat.lt_of_lt_of_le hi hl)

/-- A node below `k` does not notice what happens from `k` on. -/
theorem unfold_congr (hclosed : ClosedBelow k s) (hsame : SameBelow k s s') (depth : Nat) :
    ∀ i < k, s'.unfold depth i = s.unfold depth i := by
  induction depth with
  | zero =>
    intro i _
    rfl
  | succ depth ih =>
    intro i hi
    rw [unfold_succ, unfold_succ, hsame i hi]
    cases hstored : s.nodes[i]? with
    | none => rfl
    | some stored =>
      have hrefs := hclosed i hi stored hstored
      have hchildren : stored.children.mapM (s'.unfold depth) =
          stored.children.mapM (s.unfold depth) :=
        mapM_congr fun c hc => ih c (hrefs c (List.mem_append_right _ hc))
      have horigin : s'.unfoldOrigin depth stored.origin = s.unfoldOrigin depth stored.origin := by
        cases ho : stored.origin with
        | none => rfl
        | some o =>
          rw [unfoldOrigin, unfoldOrigin, ih o (hrefs o (by rw [StoredNode.refs, ho]; simp))]
      rw [Option.bind_some, Option.bind_some, hchildren, horigin]

theorem lt_size_of_getElem? {stored : StoredNode} (h : s.nodes[i]? = some stored) :
    i < s.nodes.size := (Array.getElem?_eq_some_iff.mp h).1

/-- The nodes below `known` are the source, and each of the others refers to earlier nodes only. -/
structure Ordered (known : Nat) (s : Store) : Prop where
  size : known ≤ s.nodes.size
  source : ClosedBelow known s
  later : ∀ i stored, s.nodes[i]? = some stored → known ≤ i → ∀ j ∈ stored.refs, j < i

variable {known : Nat}

theorem Ordered.closed (h : Ordered known s) (hk : known ≤ k) : ClosedBelow k s := by
  intro i hi stored hstored j hj
  by_cases hknown : i < known
  · exact Nat.lt_of_lt_of_le (h.source i hknown stored hstored j hj) hk
  · exact Nat.lt_trans (h.later i stored hstored (Nat.not_lt.mp hknown) j hj) hi

end Store

/-! ### What is read -/

open Store

/-- The node `i` reads as `p` in a number of steps, if the identities from `known` on are left out. -/
def HoldsAt (known : Nat) (s : Store) (depth : Nat) (i : NodeId) (p : Node) : Prop :=
  ∃ n, s.unfold depth i = some n ∧ n.forget known = p

/-- The node `i` reads as `p`, if the identities from `known` on are left out. -/
def Holds (known : Nat) (s : Store) (i : NodeId) (p : Node) : Prop :=
  HoldsAt known s s.nodes.size i p

section Holds

variable {known k : Nat} {s s' : Store} {depth : Nat} {i : NodeId} {p : Node}

theorem holdsAt_succ_iff : HoldsAt known s (depth + 1) i p ↔
    ∃ stored origin children, s.nodes[i]? = some stored ∧
      Option.Rel (HoldsAt known s depth) stored.origin origin ∧
      List.Forall₂ (HoldsAt known s depth) stored.children children ∧
      p = .mk ((some i).filter fun i => i < known) stored.parent origin stored.info children := by
  constructor
  · rintro ⟨n, hn, rfl⟩
    obtain ⟨stored, origin, children, hstored, horigin, hchildren, rfl⟩ :=
      unfold_succ_eq_some_iff.mp hn
    exact ⟨stored, origin.map (Node.forget known), children.map (Node.forget known), hstored,
      relOption_exists_iff.mpr ⟨origin, horigin, rfl⟩,
      forall₂_exists_iff.mpr ⟨children, hchildren, rfl⟩, Node.forget_mk _ _ _ _ _⟩
  · rintro ⟨stored, _, _, hstored, horigin, hchildren, rfl⟩
    obtain ⟨origin, ho, rfl⟩ := relOption_exists_iff.mp horigin
    obtain ⟨children, hc, rfl⟩ := forall₂_exists_iff.mp hchildren
    exact ⟨_, unfold_succ_eq_some_iff.mpr ⟨stored, origin, children, hstored, ho, hc, rfl⟩,
      Node.forget_mk _ _ _ _ _⟩

theorem HoldsAt.mono (h : HoldsAt known s depth i p) {more : Nat} (hmore : depth ≤ more) :
    HoldsAt known s more i p := by
  obtain ⟨n, hn, rfl⟩ := h
  exact ⟨n, unfold_mono hn hmore, rfl⟩

/-- A node below `k` still reads the same when only nodes from `k` on have changed. -/
theorem HoldsAt.of_same (h : HoldsAt known s depth i p) (hordered : Ordered known s) (hk : known ≤ k)
    (hsame : SameBelow k s s') (hi : i < k) : HoldsAt known s' depth i p := by
  obtain ⟨n, hn, rfl⟩ := h
  exact ⟨n, (unfold_congr (hordered.closed hk) hsame depth i hi).trans hn, rfl⟩

theorem Holds.of_same (h : Holds known s i p) (hordered : Ordered known s) (hk : known ≤ k)
    (hsame : SameBelow k s s') (hsize : s.nodes.size ≤ s'.nodes.size) (hi : i < k) :
    Holds known s' i p :=
  (HoldsAt.of_same h hordered hk hsame hi).mono hsize

/-- What is known of a node that reads as `p`. -/
theorem Holds.exists_stored (h : Holds known s i p) : ∃ stored, s.nodes[i]? = some stored ∧
    p.id = (some i).filter (fun i => i < known) ∧ p.parent = stored.parent ∧ p.info = stored.info ∧
      List.Forall₂ (Holds known s) stored.children p.children := by
  obtain ⟨n, hn, _⟩ := id h
  cases hsize : s.nodes.size with
  | zero =>
    rw [hsize] at hn
    cases hn
  | succ less =>
    rw [Holds, hsize] at h
    obtain ⟨stored, origin, children, hstored, _, hchildren, rfl⟩ := holdsAt_succ_iff.mp h
    refine ⟨stored, hstored, rfl, rfl, rfl, hchildren.imp fun c m hc => ?_⟩
    exact hc.mono (by omega)

theorem Holds.lt_size (h : Holds known s i p) : i < s.nodes.size := by
  obtain ⟨stored, hstored, _⟩ := h.exists_stored
  exact lt_size_of_getElem? hstored

end Holds

end CondMarkup
