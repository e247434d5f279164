import ForwardChaining.Rule.Basic

/-!
This module contains the agenda of pending activations. Activations are selected by the priority of
their rule, then by its number of conditions, then by the recency of the bound facts, then by the order
of declaration, and last by the bound identities.

The queue is cleaned lazily: what is withdrawn or replaced stays in it and is skipped when it surfaces.
-/

namespace ForwardChaining

/-- The identities bound by the patterns of a rule, in their order. -/
abbrev Token := List Int

/-- A rule together with a consistent binding of facts. -/
structure Activation where
  rule : Rule
  token : Token
  /-- The stamps of the bound facts, the most recent first. -/
  recency : List Int := []
  /-- The versions of the bound facts, in the order of the token. -/
  versions : List Int := []
  /-- The identity of the activation itself. -/
  serial : Nat := 0
deriving Repr, Inhabited

/-- Two activations are about the same if rule and bound identities agree. -/
abbrev ActivationKey := String × Token

/-- What the order of selection depends on. -/
structure SortKey where
  priority : Int
  specificity : Int
  stamps : List Int
  order : Int
  token : Token
deriving DecidableEq, Repr

namespace SortKey

/-- Lists of integers in the order of a dictionary. -/
def compareLists : List Int → List Int → Ordering
  | [], [] => .eq
  | [], _ :: _ => .lt
  | _ :: _, [] => .gt
  | x :: xs, y :: ys => (compare x y).then (compareLists xs ys)

/-- The first part that differs decides. -/
def compare (a b : SortKey) : Ordering :=
  (Ord.compare a.priority b.priority).then <|
  (Ord.compare a.specificity b.specificity).then <|
  (compareLists a.stamps b.stamps).then <|
  (Ord.compare a.order b.order).then (compareLists a.token b.token)

end SortKey

namespace Activation

def key (a : Activation) : ActivationKey :=
  (a.rule.name, a.token)

/--
The sort key. Everything of which more comes first is negated; a zero behind the negated stamps comes
after every one of them, so that of two activations the one with more facts comes first.
-/
def sortKey (a : Activation) : SortKey where
  priority := -a.rule.priority
  specificity := -(a.rule.specificity : Int)
  stamps := a.recency.map (- ·) ++ [0]
  order := a.rule.order
  token := a.token

end Activation

/-- A place in the queue: an activation, and the number of the offer that put it there. -/
structure Agenda.Entry where
  activation : Activation
  number : Nat
deriving Repr, Inhabited

structure Agenda where
  /-- The offers in the order of selection, also those that are not pending any more. -/
  queue : List Agenda.Entry := []
  /-- The pending activations under their keys. -/
  entries : List (ActivationKey × Activation) := []
  /-- The number of the next offer. -/
  counter : Nat := 0
deriving Repr, Inhabited

namespace Agenda

/-- Does one place come before another? Ties are broken by the number of the offer. -/
def Entry.before (a b : Entry) : Bool :=
  match a.activation.sortKey.compare b.activation.sortKey with
  | .lt => true
  | .eq => a.number < b.number
  | .gt => false

def enqueue (entry : Entry) : List Entry → List Entry
  | [] => [entry]
  | e :: es => if entry.before e then entry :: e :: es else e :: enqueue entry es

def find? (agenda : Agenda) (key : ActivationKey) : Option Activation :=
  agenda.entries.lookup key

/-- Put an activation under its key: in the old place if the key occurs, at the end otherwise. -/
def put (a : Activation) : List (ActivationKey × Activation) → List (ActivationKey × Activation)
  | [] => [(a.key, a)]
  | (k, b) :: es => if k = a.key then (k, a) :: es else (k, b) :: put a es

def drop (key : ActivationKey) (entries : List (ActivationKey × Activation)) :
    List (ActivationKey × Activation) :=
  entries.filter (·.1 ≠ key)

/-- Add an activation; it replaces one that is pending under its key. -/
def offer (agenda : Agenda) (a : Activation) : Agenda where
  queue := enqueue ⟨a, agenda.counter⟩ agenda.queue
  entries := put a agenda.entries
  counter := agenda.counter + 1

/-- Remove a pending activation, and tell whether there was one. -/
def withdraw (agenda : Agenda) (key : ActivationKey) : Agenda × Bool :=
  ({ agenda with entries := drop key agenda.entries }, (agenda.find? key).isSome)

/-- Is the very activation still the one that is pending under its key? -/
def isLive (agenda : Agenda) (a : Activation) : Bool :=
  (agenda.find? a.key).any (·.serial = a.serial)

/-- The queue from the first entry on that is still pending. -/
def skipStale (agenda : Agenda) : List Entry → List Entry
  | [] => []
  | e :: es => if agenda.isLive e.activation then e :: es else skipStale agenda es

def select (agenda : Agenda) : Agenda × Option Activation :=
  match agenda.skipStale agenda.queue with
  | [] => ({ agenda with queue := [] }, none)
  | e :: es =>
    ({ agenda with queue := es, entries := drop e.activation.key agenda.entries },
      some e.activation)

def peek (agenda : Agenda) : Agenda × Option Activation :=
  match agenda.skipStale agenda.queue with
  | [] => ({ agenda with queue := [] }, none)
  | e :: es => ({ agenda with queue := e :: es }, some e.activation)

/-- The pending activations in the order of selection. -/
def activations (agenda : Agenda) : List Activation :=
  (agenda.entries.map (·.2)).mergeSort fun a b => a.sortKey.compare b.sortKey != .gt

def size (agenda : Agenda) : Nat :=
  agenda.entries.length

def contains (agenda : Agenda) (key : ActivationKey) : Bool :=
  (agenda.find? key).isSome

/-- Drop everything. Numbers of offers are not used again. -/
def clear (agenda : Agenda) : Agenda :=
  { counter := agenda.counter }

end Agenda
end ForwardChaining
