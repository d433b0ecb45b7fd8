import CondMarkup.Proofs.StoreActions
import CondMarkup.Proofs.Failure

/-!
Computations on a store against computations without one. `Refines known base s x y R` says that `x`,
run on the store `s`, does what `y` does: it tells the same steps and fails with the same error, or
comes to a result that is related by `R` to the result of `y`. On the way it performs only actions
that are allowed and leaves the nodes below `base` as they are. There is one rule for each way to put
computations together.
-/

namespace CondMarkup

open Store Expansion

/-- The same error, or related results. -/
def SameOutcome {α β : Type} (R : α → β → Prop) :
    Except ExpansionError α → Except ExpansionError β → Prop
  | .ok a, .ok b => R a b
  | .error e, .error e' => e = e'
  | _, _ => False

theorem SameOutcome.mapError {α β : Type} {R : α → β → Prop} {x : Except ExpansionError α}
    {y : Except ExpansionError β} (h : SameOutcome R x y) (f : ExpansionError → ExpansionError) :
    SameOutcome R (x.mapError f) (y.mapError f) := by
  cases x <;> cases y
  · exact congrArg f h
  · exact h
  · exact h
  · exact h

structure Refines {α β : Type} (known base : Nat) (s : Store) (x : OnStore α)
    (y : Journaled Step ExpansionError β) (R : Store → α → β → Prop) : Prop where
  allowed : AllAllowed known s (x s).journal
  same : SameBelow base s (s.performAll (x s).journal)
  steps : (x s).journal.filterMap Action.step? = y.journal
  outcome : SameOutcome (R (s.performAll (x s).journal)) (x s).outcome y.outcome

/-- Nothing that was in the first store is changed in the second. -/
def Later (s s' : Store) : Prop := SameBelow s.nodes.size s s' ∧ s.nodes.size ≤ s'.nodes.size

theorem Later.trans {s s' s'' : Store} (h : Later s s') (h' : Later s' s'') : Later s s'' :=
  ⟨h.1.trans (h'.1.mono h.2), Nat.le_trans h.2 h'.2⟩

theorem Holds.later {known : Nat} {s s' : Store} {i : NodeId} {p : Node} (h : Holds known s i p)
    (hordered : Ordered known s) (hlater : Later s s') : Holds known s' i p :=
  h.of_same hordered hordered.size hlater.1 hlater.2 h.lt_size

section Rules

variable {α β γ δ : Type} {known base : Nat} {s : Store} {x : OnStore α}
  {y : Journaled Step ExpansionError β} {R : Store → α → β → Prop}

theorem Refines.later (h : Refines known s.nodes.size s x y R) :
    Later s (s.performAll (x s).journal) := ⟨h.same, size_le_performAll _ _⟩

/-- It matters only what a computation does on the store. -/
theorem Refines.of_eq {z : OnStore α} (h : Refines known base s x y R) (hz : z s = x s) :
    Refines known base s z y R := by
  obtain ⟨hallowed, hsame, hsteps, houtcome⟩ := h
  rw [← hz] at hallowed hsame hsteps houtcome
  exact ⟨hallowed, hsame, hsteps, houtcome⟩

/-- Less is left as it is, and less is known of the results. -/
theorem Refines.mono {base' : Nat} {R' : Store → α → β → Prop} (h : Refines known base s x y R)
    (hbase : base' ≤ base) (hR : ∀ s' a b, R s' a b → R' s' a b) : Refines known base' s x y R' := by
  refine ⟨h.allowed, h.same.mono hbase, h.steps, ?_⟩
  have houtcome := h.outcome
  revert houtcome
  cases (x s).outcome <;> cases y.outcome <;> intro houtcome
  · exact houtcome
  · exact houtcome
  · exact houtcome
  · exact hR _ _ _ houtcome

theorem refines_pure {a : α} {b : β} (h : R s a b) : Refines known base s (pure a) (pure b) R :=
  ⟨trivial, .refl base s, rfl, h⟩

/-- A step that both tell before the rest. -/
theorem refines_tell_bind {step : Step} {f : Unit → OnStore α}
    {g : Unit → Journaled Step ExpansionError β}
    (h : Refines known base s (f ()) (g ()) R) :
    Refines known base s (OnStore.act (.tell step) >>= f) (.write step >>= g) R := by
  obtain ⟨hallowed, hsame, hsteps, houtcome⟩ := h
  refine ⟨⟨trivial, hallowed⟩, hsame, ?_, houtcome⟩
  exact congrArg (step :: ·) hsteps

theorem checked_bind (c : Except Cause α) (f : α → Except Cause β) :
    Expansion.checked (c >>= f) = Expansion.checked c >>= fun a => Expansion.checked (f a) := by
  cases c with
  | ok a => exact (Journaled.pure_bind' a fun a => Expansion.checked (f a)).symm
  | error cause => rfl

/-- One after the other. What comes second starts with a store in which what comes first has left the
nodes below `first` as they were. -/
theorem Refines.bind {first : Nat} {f : α → OnStore γ} {g : β → Journaled Step ExpansionError δ}
    {R' : Store → γ → δ → Prop} (hx : Refines known first s x y R) (hordered : Ordered known s)
    (hbase : base ≤ first)
    (hf : ∀ s' a b, Ordered known s' → SameBelow known s s' → SameBelow first s s' →
      s.nodes.size ≤ s'.nodes.size → y.outcome = .ok b → R s' a b →
        Refines known base s' (f a) (g b) R') :
    Refines known base s (x >>= f) (y >>= g) R' := by
  obtain ⟨hallowed, hsame, hsteps, houtcome⟩ := hx
  obtain ⟨steps, outcome⟩ := y
  cases hxs : x s with
  | mk actions result =>
    rw [hxs] at hallowed hsame hsteps houtcome
    obtain rfl : actions.filterMap Action.step? = steps := hsteps
    cases result with
    | error e =>
      cases outcome with
      | ok b => exact houtcome.elim
      | error e' =>
        obtain rfl : e = e' := houtcome
        have hfails : Refines known base s (fun _ => ⟨actions, .error e⟩)
            ((⟨actions.filterMap Action.step?, .error e⟩ : Journaled _ _ β) >>= g) R' :=
          ⟨hallowed, hsame.mono hbase, rfl, rfl⟩
        exact hfails.of_eq (OnStore.bind_of_error hxs)
    | ok a =>
      cases outcome with
      | error e => exact houtcome.elim
      | ok b =>
        have hf' := hf _ a b (hallowed.ordered hordered) (hallowed.sameBelow hordered) hsame
          (size_le_performAll _ _) rfl houtcome
        refine Refines.of_eq (x := fun _ => ⟨_, _⟩) ?_ (OnStore.bind_of_ok hxs)
        refine ⟨allAllowed_append.mpr ⟨hallowed, hf'.allowed⟩, ?_, ?_, ?_⟩
        · rw [performAll_append]
          exact (hsame.mono hbase).trans hf'.same
        · rw [List.filterMap_append, hf'.steps]
          rfl
        · rw [performAll_append]
          exact hf'.outcome

/-- What only looks at the store does not count. -/
theorem refines_of_silent {f : α → OnStore γ} {y : Journaled Step ExpansionError δ}
    {R : Store → γ → δ → Prop} {a : α} (hx : x s = ⟨[], .ok a⟩) (h : Refines known base s (f a) y R) :
    Refines known base s (x >>= f) y R := by
  exact h.of_eq (OnStore.bind_of_silent hx)

/-- The same check before the rest. -/
theorem refines_checked_bind {c : Except Cause α} {f : α → OnStore γ}
    {g : α → Journaled Step ExpansionError δ} {R : Store → γ → δ → Prop}
    (h : ∀ a, c = .ok a → Refines known base s (f a) (g a) R) :
    Refines known base s (OnStore.checked c >>= f) (Expansion.checked c >>= g) R := by
  cases c with
  | ok a =>
    have hright : (Expansion.checked (.ok a) >>= g) = g a := Journaled.pure_bind' a g
    rw [hright]
    exact refines_of_silent rfl (h a rfl)
  | error cause => exact ⟨trivial, .refl base s, rfl, rfl⟩

/-- What only the first computation does, it does before the rest. -/
theorem Refines.bind_left {first : Nat} {f : α → OnStore γ} {z : Journaled Step ExpansionError δ}
    {R : Store → α → Unit → Prop} {R' : Store → γ → δ → Prop}
    (hx : Refines known first s x (pure ()) R) (hordered : Ordered known s) (hbase : base ≤ first)
    (hf : ∀ s' a, Ordered known s' → SameBelow known s s' → SameBelow first s s' →
      s.nodes.size ≤ s'.nodes.size → R s' a () → Refines known base s' (f a) z R') :
    Refines known base s (x >>= f) z R' := by
  have hbind := hx.bind (g := fun _ => z) hordered hbase fun s' a _ hs' hknown hsame hsize _ hR =>
    hf s' a hs' hknown hsame hsize hR
  rwa [pure_bind] at hbind

/-- A computation that only the first does, with the result that the second has at once. -/
theorem Refines.finish {first : Nat} {b : β} {R : Store → α → Unit → Prop} {R' : Store → α → β → Prop}
    (hx : Refines known first s x (Pure.pure ()) R) (hordered : Ordered known s)
    (hbase : base ≤ first)
    (hR : ∀ s' a, SameBelow first s s' → s.nodes.size ≤ s'.nodes.size → R s' a () → R' s' a b) :
    Refines known base s x (Pure.pure b) R' := by
  have hbind : Refines known base s (x >>= Pure.pure) (Pure.pure b) R' :=
    hx.bind_left hordered hbase fun s' a _ _ hsame hsize h => refines_pure (hR s' a hsame hsize h)
  rwa [bind_pure] at hbind

/-! ### Making and writing -/

/-- What is known after a node was made. -/
def Made (known : Nat) (s : Store) (p : Node) (s' : Store) (i : NodeId) (_ : Unit) : Prop :=
  i = s.nodes.size ∧ Later s s' ∧ Holds known s' i p

theorem refines_make {kind : Kind} {value : Option String} {ids : List NodeId} {children : List Node}
    (hordered : Ordered known s) (hchildren : List.Forall₂ (Holds known s) ids children) :
    Refines known s.nodes.size s (InPlace.make kind ids value) (pure ())
      (Made known s (Node.make kind children value)) := by
  have hlater : Later s (s.performAll [.make (Node.make kind [] value).info ids]) :=
    ⟨sameBelow_push rfl, size_le_performAll _ _⟩
  refine ⟨⟨fun c hc => ?_, trivial⟩, hlater.1, rfl, rfl, hlater, ?_⟩
  · obtain ⟨m, _, hm⟩ := exists_of_forall₂ hchildren hc
    exact hm.lt_size
  · exact holds_push hordered rfl .none hchildren

theorem refines_copy {i : NodeId} {p : Node} {ids : List NodeId} {children : List Node}
    (hordered : Ordered known s) (h : Holds known s i p)
    (hchildren : List.Forall₂ (Holds known s) ids children) :
    Refines known s.nodes.size s (OnStore.create (.copy i ids)) (pure ())
      (Made known s (p.copyWith children)) := by
  obtain ⟨stored, hstored, _, hparent, hinfo, _⟩ := h.exists_stored
  have hpush : (s.performAll [.copy i ids]).nodes =
      s.nodes.push { stored with origin := some i, children := ids } := nodes_copy hstored ids
  have hlater : Later s (s.performAll [.copy i ids]) := ⟨sameBelow_push hpush, size_le_performAll _ _⟩
  refine ⟨⟨⟨h.lt_size, fun c hc => ?_⟩, trivial⟩, hlater.1, rfl, rfl, hlater, ?_⟩
  · obtain ⟨m, _, hm⟩ := exists_of_forall₂ hchildren hc
    exact hm.lt_size
  · have hholds := holds_push hordered hpush (.some h) hchildren
    rw [← hparent, ← hinfo] at hholds
    exact hholds

theorem refines_setOrigin {target origin : NodeId} {p q : Node} (hordered : Ordered known s)
    (htarget : known ≤ target) (horigin : origin < known) (h : Holds known s target p)
    (hq : HoldsAt known s known origin q) :
    Refines known target s (OnStore.act (.setOrigin target origin)) (pure ())
      fun s' _ _ => Holds known s' target (p.withOrigin q) :=
  ⟨⟨⟨htarget, h.lt_size, horigin⟩, trivial⟩, sameBelow_setOrigin s target origin, rfl,
    holds_setOrigin hordered htarget horigin h hq⟩

end Rules

end CondMarkup
