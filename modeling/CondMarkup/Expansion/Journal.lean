import CondMarkup.Markup.Node

/-!
Computations that keep a journal: a list of what was done, which remains when the computation
fails. The journal of two computations one after the other is the journal of the first followed by
that of the second.
-/

namespace CondMarkup

/-- A value or an error, with the journal that led to it. -/
structure Journaled (σ ε α : Type) where
  journal : List σ
  outcome : Except ε α

namespace Journaled

variable {σ ε α β : Type}

def pure (a : α) : Journaled σ ε α := ⟨[], .ok a⟩

def bind (x : Journaled σ ε α) (f : α → Journaled σ ε β) : Journaled σ ε β :=
  match x.outcome with
  | .ok a => ⟨x.journal ++ (f a).journal, (f a).outcome⟩
  | .error e => ⟨x.journal, .error e⟩

instance : Monad (Journaled σ ε) where
  pure := pure
  bind := bind

/-- Writes one entry. -/
def write (entry : σ) : Journaled σ ε Unit := ⟨[entry], .ok ()⟩

/-- A computation without a journal. -/
def lift (x : Except ε α) : Journaled σ ε α := ⟨[], x⟩

/-- Changes the error of a failed computation. -/
def mapError {ε' : Type} (f : ε → ε') (x : Journaled σ ε α) : Journaled σ ε' α :=
  ⟨x.journal, x.outcome.mapError f⟩

@[simp] theorem journal_pure (a : α) : (Pure.pure a : Journaled σ ε α).journal = [] := rfl

@[simp] theorem outcome_pure (a : α) : (Pure.pure a : Journaled σ ε α).outcome = .ok a := rfl

theorem bind_ok {j : List σ} {a : α} (f : α → Journaled σ ε β) :
    (⟨j, .ok a⟩ : Journaled σ ε α) >>= f = ⟨j ++ (f a).journal, (f a).outcome⟩ := rfl

theorem bind_error {j : List σ} {e : ε} (f : α → Journaled σ ε β) :
    (⟨j, .error e⟩ : Journaled σ ε α) >>= f = ⟨j, .error e⟩ := rfl

theorem map_id' (x : Journaled σ ε α) : id <$> x = x := by
  obtain ⟨j, o⟩ := x
  cases o with
  | ok a => simp [Functor.map, bind, pure]
  | error e => rfl

theorem pure_bind' (a : α) (f : α → Journaled σ ε β) : Pure.pure a >>= f = f a := by
  show (⟨[] ++ (f a).journal, (f a).outcome⟩ : Journaled σ ε β) = f a
  simp

theorem bind_assoc' {γ : Type} (x : Journaled σ ε α) (f : α → Journaled σ ε β)
    (g : β → Journaled σ ε γ) : x >>= f >>= g = x >>= fun a => f a >>= g := by
  obtain ⟨j, o⟩ := x
  cases o with
  | error e => rfl
  | ok a =>
    rw [bind_ok, bind_ok]
    cases h : f a with
    | mk j' o' => cases o' <;> simp [Bind.bind, bind]

instance : LawfulMonad (Journaled σ ε) :=
  LawfulMonad.mk' _ map_id' pure_bind' bind_assoc'

end Journaled

end CondMarkup
