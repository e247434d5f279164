import ForwardChaining.Logged
import ForwardChaining.Rule.Condition

/-!
This module contains the memories of conditions: which facts pass a filter, how many of them there
are under each key, and what those under one key contribute to an aggregate. A memory reports the keys
whose state a change of a fact affects.
-/

namespace ForwardChaining

def FactFilter.test (filter : FactFilter) (fact : Fact) : Logged Bool :=
  ⟨filter.complaints fact, filter.accepts fact⟩

/-- Test bindings, and log it if the predicate fails. -/
def JoinCondition.test (join : JoinCondition) (bindings : Bindings) : Logged Bool :=
  ⟨join.complaints bindings, join.holds bindings⟩

abbrev Members (α : Type) := List (Int × α)

namespace Members

/-- Put an entry under an identity: in its old place if the identity occurs, at the end otherwise. -/
def put (id : Int) (a : α) : Members α → Members α
  | [] => [(id, a)]
  | (i, b) :: members => if i = id then (id, a) :: members else (i, b) :: put id a members

def drop (id : Int) (members : Members α) : Members α :=
  members.filter (·.1 ≠ id)

end Members

/-- The identities of the facts that pass a filter, in the order in which they came. -/
structure AlphaMemory where
  filter : FactFilter
  members : List Int := []
deriving Repr, Inhabited

namespace AlphaMemory

def add (memory : AlphaMemory) (fact : Fact) : Logged AlphaMemory := do
  if ← memory.filter.test fact then
    return if memory.members.contains fact.id then memory
      else { memory with members := memory.members ++ [fact.id] }
  return memory

def remove (memory : AlphaMemory) (id : Int) : AlphaMemory :=
  { memory with members := memory.members.filter (· ≠ id) }

end AlphaMemory

/-- How many facts pass the filter of a negation, under each key. -/
structure NegationMemory where
  filter : FactFilter
  keys : List KeyBinding := []
  /-- The keys with at least one fact. -/
  counts : List (Key × Nat) := []
  members : Members Key := []
deriving Repr, Inhabited

namespace NegationMemory

def count (memory : NegationMemory) (key : Key) : Nat :=
  (Key.find? key memory.counts).getD 0

def blocked (memory : NegationMemory) (key : Key) : Bool :=
  0 < memory.count key

/-- Count a fact. Its key is reported if the fact is the first one under it. -/
def add (memory : NegationMemory) (fact : Fact) : Logged (NegationMemory × Option Key) := do
  if ← memory.filter.test fact then
    let key := factKey memory.keys fact
    let count := memory.count key + 1
    let counted := { memory with
      counts := Key.insert key count memory.counts
      members := memory.members.put fact.id key }
    return (counted, if count = 1 then some key else none)
  return (memory, none)

/-- Uncount a fact. Its key is reported if the fact was the last one under it. -/
def remove (memory : NegationMemory) (id : Int) : NegationMemory × Option Key :=
  match memory.members.lookup id with
  | none => (memory, none)
  | some key =>
    let members := memory.members.drop id
    let count := memory.count key - 1
    if count = 0 then
      ({ memory with counts := Key.erase key memory.counts, members }, some key)
    else
      ({ memory with counts := Key.insert key count memory.counts, members }, none)

end NegationMemory

/-- How often each value is contributed. Equal contributions are kept as the one that came first. -/
abbrev Tally := List (Value × Nat)

namespace Tally

def add (x : Value) : Tally → Tally
  | [] => [(x, 1)]
  | (y, n) :: tally => if x.same y then (y, n + 1) :: tally else (y, n) :: add x tally

/-- Uncount a contribution; one that is not contributed any more is dropped. -/
def remove (x : Value) : Tally → Tally
  | [] => []
  | (y, n) :: tally =>
    if x.same y then (if n ≤ 1 then tally else (y, n - 1) :: tally) else (y, n) :: remove x tally

/-- The contributions, each as often as it was counted. -/
def elements (tally : Tally) : List Value :=
  tally.flatMap fun (x, n) => List.replicate n x

end Tally

/-- What the facts of one group contribute. -/
structure Group where
  count : Nat := 0
  tally : Tally := []
deriving Repr, Inhabited

/-- What the facts that pass the filter of an aggregate contribute, by groups. -/
structure AggregateMemory where
  filter : FactFilter
  keys : List KeyBinding := []
  test : AggregateTest := {}
  /-- The groups with at least one fact. -/
  groups : List (Key × Group) := []
  members : Members (Key × Value) := []
deriving Repr, Inhabited

namespace AggregateMemory

/-- Fold a fact into its group, whose key is reported. -/
def add (memory : AggregateMemory) (fact : Fact) : Logged (AggregateMemory × Option Key) := do
  if ← memory.filter.test fact then
    match memory.test.contribution fact with
    | none => return (memory, none)
    | some contribution =>
      let key := factKey memory.keys fact
      let group := (Key.find? key memory.groups).getD {}
      let group := { count := group.count + 1, tally := group.tally.add contribution }
      let folded := { memory with
        groups := Key.insert key group memory.groups
        members := memory.members.put fact.id (key, contribution) }
      return (folded, some key)
  return (memory, none)

/-- Take a fact out of its group, whose key is reported. -/
def remove (memory : AggregateMemory) (id : Int) : AggregateMemory × Option Key :=
  match memory.members.lookup id with
  | none => (memory, none)
  | some (key, contribution) =>
    let members := memory.members.drop id
    let group := (Key.find? key memory.groups).getD {}
    let group := { count := group.count - 1, tally := group.tally.remove contribution }
    if group.count = 0 then
      ({ memory with groups := Key.erase key memory.groups, members }, some key)
    else
      ({ memory with groups := Key.insert key group memory.groups, members }, some key)

/-- The value of the aggregate of a group. A NaN that comes out is the `n`th computed one. -/
def value (memory : AggregateMemory) (n : Nat) (key : Key) : Except Fault Value :=
  match Key.find? key memory.groups, memory.test.function with
  | none, f => f.value n []
  | some group, .count => .ok (.int group.count)
  | some group, f => f.value n group.tally.elements

/-- Does the value of a group pass the test of the condition? -/
def passes (memory : AggregateMemory) (key : Key) : Except Fault Bool := do
  memory.test.satisfiedBy (← memory.value 0 key)

end AggregateMemory
end ForwardChaining
