import ForwardChaining.Store.Table

/-!
This module contains the fact store: a table of facts whose changes are delivered to listeners. Inside
a deferred block the table changes at once, but the changes are queued and delivered when the
outermost block ends, so an action runs to completion before its consequences are matched.
-/

namespace ForwardChaining

/--
What a listener does with a change: it changes the state `σ` that the listeners share, and it may
fail after having changed it.
-/
abbrev Listener (σ : Type) := Change → σ → σ × Option Fault

/-- A fact store with its listeners and their shared state. -/
structure Store (σ : Type) where
  table : FactTable := {}
  listeners : List (Listener σ) := []
  /-- How many deferred blocks are open. -/
  depth : Nat := 0
  /-- The queued changes, the oldest first. -/
  pending : List Change := []
  world : σ

namespace Store

variable {σ : Type}

/-- Register a listener behind those that are registered already. -/
def subscribe (store : Store σ) (listener : Listener σ) : Store σ :=
  { store with listeners := store.listeners ++ [listener] }

/-- Deliver a change to one listener after the other. The first that fails ends the delivery. -/
def deliver (change : Change) (world : σ) : List (Listener σ) → σ × Option Fault
  | [] => (world, none)
  | listener :: listeners =>
    match listener change world with
    | (world, some fault) => (world, some fault)
    | (world, none) => deliver change world listeners

/-- Deliver a change to every listener, also after one failed. The first fault is kept. -/
def deliverToAll (change : Change) (world : σ) : List (Listener σ) → σ × Option Fault
  | [] => (world, none)
  | listener :: listeners =>
    let (world, fault) := listener change world
    let (world, later) := deliverToAll change world listeners
    (world, fault.or later)

/-- Deliver queued changes, the oldest first, each to every listener. The first fault is kept. -/
def flush (listeners : List (Listener σ)) (world : σ) : List Change → σ × Option Fault
  | [] => (world, none)
  | change :: changes =>
    let (world, fault) := deliverToAll change world listeners
    let (world, later) := flush listeners world changes
    (world, fault.or later)

/-- Queue a change inside a deferred block, and deliver it at once outside. -/
def emit (store : Store σ) (change : Change) : Store σ × Option Fault :=
  if store.depth = 0 then
    let (world, fault) := deliver change store.world store.listeners
    ({ store with world }, fault)
  else
    ({ store with pending := store.pending ++ [change] }, none)

def enter (store : Store σ) : Store σ :=
  { store with depth := store.depth + 1 }

/-- Close the innermost deferred block; with the outermost, the queue is delivered. -/
def leave (store : Store σ) : Store σ × Option Fault :=
  if store.depth ≤ 1 then
    let (world, fault) := flush store.listeners store.world store.pending
    ({ store with depth := 0, pending := [], world }, fault)
  else
    ({ store with depth := store.depth - 1 }, none)

/-- Emit a change that has been made; a fault of a listener takes the place of the result. -/
def publish (store : Store σ) (change : Change) (result : α) : Store σ × Except Fault α :=
  match store.emit change with
  | (store, none) => (store, .ok result)
  | (store, some fault) => (store, .error fault)

def beginCycle (store : Store σ) : Store σ :=
  { store with table := store.table.beginCycle }

def insert (store : Store σ) (tag data : Value) : Store σ × Except Fault Int :=
  match data.toEntriesOrEmpty with
  | .error fault => (store, .error fault)
  | .ok entries =>
    match store.table.insert tag entries with
    | (table, .error fault) => ({ store with table }, .error fault)
    | (table, .ok fact) => { store with table }.publish (.inserted fact) fact.id

/-- Replace the data of a fact by entries, and give the new snapshot. -/
def replaceData (store : Store σ) (ref : Value) (entries : Entries) :
    Store σ × Except Fault Fact :=
  match store.table.update ref entries with
  | (table, .error fault) => ({ store with table }, .error fault)
  | (table, .ok (fact, previous)) => { store with table }.publish (.updated fact previous) fact

/-- Replace the data of a fact, and give the new snapshot. -/
def update (store : Store σ) (ref data : Value) : Store σ × Except Fault Fact :=
  match store.table.get ref, data.toEntries with
  | .error fault, _ => (store, .error fault)
  | .ok _, .error fault => (store, .error fault)
  | .ok _, .ok entries => store.replaceData ref entries

/-- Change some fields of a fact and keep the others. -/
def modify (store : Store σ) (ref : Value) (changes : Fields) : Store σ × Except Fault Fact :=
  match changes.requireFree "FactStore.modify" ["self", "fact_id"] with
  | .error fault => (store, .error fault)
  | .ok _ =>
    match store.table.get ref with
    | .error fault => (store, .error fault)
    | .ok previous =>
      store.replaceData ref (Entries.merge previous.data (Entries.ofFields changes))

def retract (store : Store σ) (ref : Value) : Store σ × Except Fault Fact :=
  match store.table.retract ref with
  | (table, .error fault) => ({ store with table }, .error fault)
  | (table, .ok fact) => { store with table }.publish (.retracted fact) fact

end Store
end ForwardChaining
