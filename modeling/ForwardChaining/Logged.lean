import ForwardChaining.Log

/-!
This module contains computations that may fail and that log events on their way, and updates of a
state that may fail after having changed it.
-/

namespace ForwardChaining

/-- A result or a fault, and the events that were logged before it was there. -/
structure Logged (α : Type) where
  log : List LogEntry
  outcome : Except Fault α

namespace Logged

def result (a : α) : Logged α :=
  ⟨[], .ok a⟩

def ofExcept (outcome : Except Fault α) : Logged α :=
  ⟨[], outcome⟩

def andThen (x : Logged α) (f : α → Logged β) : Logged β :=
  match x.outcome with
  | .ok a => ⟨x.log ++ (f a).log, (f a).outcome⟩
  | .error fault => ⟨x.log, .error fault⟩

instance : Monad Logged where
  pure := result
  bind := andThen

instance : MonadLift (Except Fault) Logged where
  monadLift := ofExcept

def gather (f : α → Logged (List β)) : List α → Logged (List β)
  | [] => result []
  | a :: as => do
    let first ← f a
    let rest ← gather f as
    return first ++ rest

/-- Is there an item with the property? The first one ends the search. -/
def exists? (p : α → Logged Bool) : List α → Logged Bool
  | [] => result false
  | a :: as => do if ← p a then return true else exists? p as

theorem outcome_andThen (x : Logged α) (f : α → Logged β) :
    (x.andThen f).outcome = x.outcome.bind fun a => (f a).outcome := by
  unfold andThen
  cases x.outcome <;> rfl

end Logged

/-- A state after an update, and the fault that cut the update short, if there was one. -/
abbrev Update (σ : Type) := σ × Option Fault

namespace Update

/-- Go on unless there was a fault. -/
def andThen (x : Update σ) (f : σ → Update σ) : Update σ :=
  match x with
  | (s, none) => f s
  | (s, some fault) => (s, some fault)

/-- One update after the other; the first fault ends them. -/
def each (f : α → σ → Update σ) : List α → σ → Update σ
  | [], s => (s, none)
  | a :: as, s => andThen (f a s) (each f as)

end Update
end ForwardChaining
