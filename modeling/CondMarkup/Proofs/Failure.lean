import CondMarkup.Expansion.Journal

/-!
Computations that may fail, read backwards: what must have succeeded for the whole to succeed. A list
of computations is read as a list of pairs, each input with what it comes to.
-/

namespace CondMarkup

section Plain

variable {ε α β : Type}

theorem bind_eq_ok_iff {x : Except ε α} {f : α → Except ε β} {b : β} :
    x >>= f = .ok b ↔ ∃ a, x = .ok a ∧ f a = .ok b := by
  cases x with
  | ok a =>
    constructor
    · intro h
      exact ⟨a, rfl, h⟩
    · rintro ⟨a', ha, h⟩
      cases ha
      exact h
  | error e =>
    constructor
    · intro h
      exact absurd h (by simp [bind, Except.bind])
    · rintro ⟨a, ha, _⟩
      exact absurd ha (by simp)

theorem pure_eq_ok_iff {a b : α} : (pure a : Except ε α) = .ok b ↔ a = b := by
  simp [pure, Except.pure]

theorem mapM_congr {m : Type → Type} [Monad m] [LawfulMonad m] {f g : α → m β} {as : List α}
    (h : ∀ a ∈ as, f a = g a) : as.mapM f = as.mapM g := by
  induction as with
  | nil => rfl
  | cons a rest ih =>
    rw [List.mapM_cons, List.mapM_cons, h a List.mem_cons_self,
      ih fun b hb => h b (List.mem_cons_of_mem a hb)]

/-- What a list of computations comes to, if all of them succeed. -/
theorem exists_pairs_of_mapM {f : α → Except ε β} :
    ∀ {as : List α} {bs : List β}, as.mapM f = .ok bs →
      ∃ pairs : List (α × β), pairs.map Prod.fst = as ∧ pairs.map Prod.snd = bs ∧
        ∀ p ∈ pairs, f p.1 = .ok p.2 := by
  intro as
  induction as with
  | nil =>
    intro bs h
    rw [List.mapM_nil, pure_eq_ok_iff] at h
    exact ⟨[], rfl, by rw [← h, List.map_nil], by simp⟩
  | cons a rest ih =>
    intro bs h
    rw [List.mapM_cons, bind_eq_ok_iff] at h
    obtain ⟨b, hb, h⟩ := h
    obtain ⟨bs', hbs, h⟩ := bind_eq_ok_iff.mp h
    rw [pure_eq_ok_iff] at h
    obtain ⟨pairs, hfst, hsnd, hall⟩ := ih hbs
    refine ⟨(a, b) :: pairs, by rw [List.map_cons, hfst], by rw [List.map_cons, hsnd, h], ?_⟩
    intro p hp
    rcases List.mem_cons.mp hp with rfl | hp
    · exact hb
    · exact hall p hp

theorem mapM_map_fst {f : α → Except ε β} {pairs : List (α × β)} (h : ∀ p ∈ pairs, f p.1 = .ok p.2) :
    (pairs.map Prod.fst).mapM f = .ok (pairs.map Prod.snd) := by
  induction pairs with
  | nil => rfl
  | cons p rest ih =>
    obtain ⟨hp, hrest⟩ := List.forall_mem_cons.mp h
    rw [List.map_cons, List.mapM_cons, hp, ih hrest]
    rfl

theorem exists_bind_eq_ok {x : Except ε α} {f : α → Except ε β} (hx : ∃ a, x = .ok a)
    (hf : ∀ a, ∃ b, f a = .ok b) : ∃ b, x >>= f = .ok b := by
  obtain ⟨a, rfl⟩ := hx
  exact hf a

theorem exists_mapM_eq_ok {f : α → Except ε β} {as : List α} (h : ∀ a ∈ as, ∃ b, f a = .ok b) :
    ∃ bs, as.mapM f = .ok bs := by
  induction as with
  | nil => exact ⟨[], rfl⟩
  | cons a rest ih =>
    obtain ⟨ha, hrest⟩ := List.forall_mem_cons.mp h
    rw [List.mapM_cons]
    exact exists_bind_eq_ok ha fun b => exists_bind_eq_ok (ih hrest) fun bs => ⟨b :: bs, rfl⟩

theorem mapError_eq_ok_iff {ε' : Type} {f : ε → ε'} {x : Except ε α} {a : α} :
    x.mapError f = .ok a ↔ x = .ok a := by
  cases x with
  | ok b =>
    show (Except.ok b : Except ε' α) = .ok a ↔ (Except.ok b : Except ε α) = .ok a
    rw [Except.ok.injEq, Except.ok.injEq]
  | error e => constructor <;> intro h <;> cases h

theorem bind_eq_error_iff {x : Except ε α} {f : α → Except ε β} {e : ε} :
    x >>= f = .error e ↔ x = .error e ∨ ∃ a, x = .ok a ∧ f a = .error e := by
  cases x with
  | ok a =>
    constructor
    · intro h
      exact Or.inr ⟨a, rfl, h⟩
    · rintro (h | ⟨a', ha, h⟩)
      · cases h
      · cases ha
        exact h
  | error e' =>
    constructor
    · intro h
      exact Or.inl (congrArg Except.error (Except.error.inj h))
    · rintro (h | ⟨a, ha, _⟩)
      · exact congrArg Except.error (Except.error.inj h)
      · cases ha

/-- A list of computations fails as the first of them does that fails. -/
theorem mapM_eq_error_iff {f : α → Except ε β} {as : List α} {e : ε} : as.mapM f = .error e ↔
    ∃ before a after, as = before ++ a :: after ∧ (∀ b ∈ before, ∃ x, f b = .ok x) ∧
      f a = .error e := by
  induction as with
  | nil =>
    constructor
    · intro h
      cases h
    · rintro ⟨before, a, after, h, _⟩
      simp at h
  | cons b rest ih =>
    rw [List.mapM_cons, bind_eq_error_iff]
    constructor
    · rintro (hb | ⟨x, hx, h⟩)
      · exact ⟨[], b, rest, rfl, fun c hc => absurd hc List.not_mem_nil, hb⟩
      · rcases bind_eq_error_iff.mp h with h | ⟨_, _, h⟩
        · obtain ⟨before, a, after, rfl, hbefore, ha⟩ := ih.mp h
          exact ⟨b :: before, a, after, rfl, List.forall_mem_cons.mpr ⟨⟨x, hx⟩, hbefore⟩, ha⟩
        · cases h
    · rintro ⟨before, a, after, heq, hbefore, ha⟩
      cases before with
      | nil =>
        obtain ⟨rfl, rfl⟩ := List.cons.inj heq
        exact Or.inl ha
      | cons c before =>
        obtain ⟨rfl, rfl⟩ := List.cons.inj heq
        obtain ⟨⟨x, hx⟩, hbefore⟩ := List.forall_mem_cons.mp hbefore
        exact Or.inr ⟨x, hx, bind_eq_error_iff.mpr (Or.inl (ih.mpr ⟨before, a, after, rfl, hbefore, ha⟩))⟩

theorem mapError_eq_error_iff {ε' : Type} {f : ε → ε'} {x : Except ε α} {e : ε'} :
    x.mapError f = .error e ↔ ∃ e', x = .error e' ∧ e = f e' := by
  cases x with
  | ok a =>
    constructor
    · intro h
      cases h
    · rintro ⟨e', h, _⟩
      cases h
  | error e' =>
    constructor
    · intro h
      exact ⟨e', rfl, (Except.error.inj h).symm⟩
    · rintro ⟨e'', h, rfl⟩
      cases h
      rfl

theorem toOption_eq_some_iff {x : Except ε α} {a : α} : x.toOption = some a ↔ x = .ok a := by
  cases x <;> simp [Except.toOption]

end Plain

namespace Journaled

variable {σ ε α β : Type}

theorem outcome_bind (x : Journaled σ ε α) (f : α → Journaled σ ε β) :
    (x >>= f).outcome = x.outcome >>= fun a => (f a).outcome := by
  obtain ⟨j, o⟩ := x
  cases o <;> rfl

theorem outcome_bind_eq_ok_iff {x : Journaled σ ε α} {f : α → Journaled σ ε β} {b : β} :
    (x >>= f).outcome = .ok b ↔ ∃ a, x.outcome = .ok a ∧ (f a).outcome = .ok b := by
  rw [outcome_bind, bind_eq_ok_iff]

theorem outcome_pure_eq_ok_iff {a b : α} :
    (Pure.pure a : Journaled σ ε α).outcome = .ok b ↔ a = b := by
  rw [outcome_pure, Except.ok.injEq]

theorem outcome_bind_eq_error_iff {x : Journaled σ ε α} {f : α → Journaled σ ε β} {e : ε} :
    (x >>= f).outcome = .error e ↔
      x.outcome = .error e ∨ ∃ a, x.outcome = .ok a ∧ (f a).outcome = .error e := by
  rw [outcome_bind, bind_eq_error_iff]

/-- A list of computations, each of which returns its input with its result, comes to a list of such
pairs. -/
theorem outcome_mapM_pairs {f : α → Journaled σ ε β} {as : List α} {pairs : List (α × β)} :
    (as.mapM fun a => do return (a, ← f a)).outcome = .ok pairs ↔
      pairs.map Prod.fst = as ∧ ∀ p ∈ pairs, (f p.1).outcome = .ok p.2 := by
  induction as generalizing pairs with
  | nil =>
    rw [List.mapM_nil, outcome_pure_eq_ok_iff]
    constructor
    · rintro rfl
      simp
    · rintro ⟨h, _⟩
      exact (List.map_eq_nil_iff.mp h).symm
  | cons a rest ih =>
    rw [List.mapM_cons, outcome_bind_eq_ok_iff]
    constructor
    · rintro ⟨p, hp, h⟩
      obtain ⟨b, hb, hp⟩ := outcome_bind_eq_ok_iff.mp hp
      obtain ⟨ps, hps, h⟩ := outcome_bind_eq_ok_iff.mp h
      rw [outcome_pure_eq_ok_iff] at hp h
      subst hp h
      obtain ⟨hfst, hall⟩ := ih.mp hps
      refine ⟨by rw [List.map_cons, hfst], fun p hp => ?_⟩
      rcases List.mem_cons.mp hp with rfl | hp
      · exact hb
      · exact hall p hp
    · rintro ⟨hfst, hall⟩
      cases pairs with
      | nil => simp at hfst
      | cons p ps =>
        rw [List.map_cons, List.cons.injEq] at hfst
        obtain ⟨rfl, hrest⟩ := hfst
        have hps := ih.mpr ⟨hrest, fun q hq => hall q (List.mem_cons_of_mem p hq)⟩
        refine ⟨p, ?_, ?_⟩
        · exact outcome_bind_eq_ok_iff.mpr ⟨p.2, hall p List.mem_cons_self, rfl⟩
        · exact outcome_bind_eq_ok_iff.mpr ⟨ps, hps, rfl⟩

/-- The computation of one of the inputs fails with `e`, and those of the inputs before it succeed. -/
def FailsFirst (f : α → Journaled σ ε β) (as : List α) (a : α) (e : ε) : Prop :=
  ∃ before after, as = before ++ a :: after ∧ (∀ b ∈ before, ∃ x, (f b).outcome = .ok x) ∧
    (f a).outcome = .error e

theorem failsFirst_cons {f : α → Journaled σ ε β} {a b : α} {rest : List α} {e : ε} :
    FailsFirst f (b :: rest) a e ↔
      (b = a ∧ (f a).outcome = .error e) ∨ ((∃ x, (f b).outcome = .ok x) ∧ FailsFirst f rest a e) := by
  constructor
  · rintro ⟨before, after, heq, hbefore, ha⟩
    cases before with
    | nil =>
      rw [List.nil_append, List.cons.injEq] at heq
      exact Or.inl ⟨heq.1, ha⟩
    | cons c before =>
      rw [List.cons_append, List.cons.injEq] at heq
      obtain ⟨rfl, rfl⟩ := heq
      exact Or.inr ⟨hbefore b List.mem_cons_self, before, after, rfl,
        fun c hc => hbefore c (List.mem_cons_of_mem b hc), ha⟩
  · rintro (⟨rfl, ha⟩ | ⟨hb, before, after, rfl, hbefore, ha⟩)
    · exact ⟨[], rest, rfl, fun c hc => absurd hc List.not_mem_nil, ha⟩
    · refine ⟨b :: before, after, rfl, fun c hc => ?_, ha⟩
      rcases List.mem_cons.mp hc with rfl | hc
      · exact hb
      · exact hbefore c hc

/-- A list of computations fails as the first of them does that fails. -/
theorem outcome_mapM_pairs_eq_error_iff {f : α → Journaled σ ε β} {as : List α} {e : ε} :
    (as.mapM fun a => do return (a, ← f a)).outcome = .error e ↔ ∃ a, FailsFirst f as a e := by
  have hpair : ∀ a e, (do return (a, ← f a) : Journaled σ ε (α × β)).outcome = .error e ↔
      (f a).outcome = .error e := by
    intro a e
    rw [outcome_bind_eq_error_iff]
    constructor
    · rintro (h | ⟨b, _, h⟩)
      · exact h
      · cases h
    · exact Or.inl
  induction as with
  | nil =>
    constructor
    · intro h
      cases h
    · rintro ⟨a, before, after, h, _⟩
      simp at h
  | cons b rest ih =>
    rw [List.mapM_cons, outcome_bind_eq_error_iff, hpair]
    simp only [failsFirst_cons]
    constructor
    · rintro (hb | ⟨p, hp, h⟩)
      · exact ⟨b, Or.inl ⟨rfl, hb⟩⟩
      · obtain ⟨x, hx, _⟩ := outcome_bind_eq_ok_iff.mp hp
        rcases outcome_bind_eq_error_iff.mp h with h | ⟨ps, _, h⟩
        · obtain ⟨a, ha⟩ := ih.mp h
          exact ⟨a, Or.inr ⟨⟨x, hx⟩, ha⟩⟩
        · cases h
    · rintro ⟨a, ⟨rfl, ha⟩ | ⟨⟨x, hx⟩, ha⟩⟩
      · exact Or.inl ha
      · exact Or.inr ⟨(b, x), outcome_bind_eq_ok_iff.mpr ⟨x, hx, rfl⟩,
          outcome_bind_eq_error_iff.mpr (Or.inl (ih.mpr ⟨a, ha⟩))⟩

end Journaled

end CondMarkup
