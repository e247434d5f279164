import ForwardChaining.Network.Rescan
import ForwardChaining.Session.Action
import ForwardChaining.Settings
import ForwardChaining.Trace

/-!
This module contains sessions and the inference loop. A session has a fact store and a matching network
that listens to it. A run selects the next activation, executes its action and lets the network match
again, until nothing is left to fire or a budget is exhausted.
-/

namespace ForwardChaining

-- powers are those of the core library, also in the presence of others
attribute [local instance (high)] instPowNat

structure Session where
  id : String
  ruleSet : RuleSet
  store : Store Network
  /-- A run stops when it has selected as many activations as this number. -/
  cycleLimit : Value
  /-- How many seconds a run may take. -/
  timeBudget : Option Value := none
  state : TerminalState := .running
  /-- How many activations were selected. -/
  cycle : Int := 0
  /-- The number of the next computation. Predicates compute under number zero. -/
  serial : Nat := 1
  trace : List TraceEntry := []
  /-- The result, once the session ran. -/
  result : Option RunResult := none

/--
The numbers that a firing uses up before its action: one for each value that the conditions may name. No
such value is put into a fact where there is no action.
-/
def Rule.reserved (rule : Rule) : Nat :=
  if rule.action.isEmpty then 0 else rule.conditions.length

def Network.listener : Listener Network :=
  fun change net => net.onChange change

namespace Session

variable {σ : Type}

def network (session : Session) : Network :=
  session.store.world

def mapNetwork (f : Network → Network) (session : Session) : Session :=
  { session with store := { session.store with world := f session.store.world } }

def record (session : Session) (entry : LogEntry) : Session :=
  session.mapNetwork (·.record [entry])

/-! ### Facts -/

def change (session : Session) (f : Store Network → Store Network × Except Fault α) :
    Session × Except Fault α :=
  let (store, result) := f session.store
  ({ session with store }, result)

def insert (session : Session) (tag data : Value) : Session × Except Fault Int :=
  session.change (·.insert tag data)

def update (session : Session) (ref data : Value) : Session × Except Fault Fact :=
  session.change (·.update ref data)

/-- Change some fields of a fact and keep the others. -/
def modify (session : Session) (ref : Value) (changes : Fields) : Session × Except Fault Fact :=
  match changes.requireFree "Session.modify" ["self", "fact_id"] with
  | .error fault => (session, .error fault)
  | .ok _ => session.change (·.modify ref changes)

def retract (session : Session) (ref : Value) : Session × Except Fault Fact :=
  session.change (·.retract ref)

/-! ### Firing -/

/-- Has the time budget been exhausted before the run began? -/
def exhausted (session : Session) : Except Fault Bool :=
  match session.timeBudget with
  | none => .ok false
  | some budget =>
    match budget.number? with
    | some n => .ok (n.compare? (.int 0) == some .lt)
    | none => .error (.unordered .greater ⟨"float", budget.typeName⟩)

/-- The allowance of a session without a limit: no run ever uses it up. -/
def unlimited : Nat := 2 ^ (64 : Nat)

/-- How many more activations may be selected. A fraction of one counts as one. -/
def allowance (session : Session) : Nat :=
  match session.cycleLimit.number?.bind Number.value? with
  | some (.rational limit) => (limit.ceil - session.cycle).toNat
  | _ => unlimited

/-- A new firing of an activation. It uses up the numbers of the values that conditions may name. -/
def firingOf (session : Session) (activation : Activation) : Except Fault Firing := do
  let bindings ← session.network.bindings activation
  let values ← session.network.aggregateValues activation session.serial
  return {
    store := session.store
    rule := activation.rule.name
    bindings
    values
    cycle := .int session.cycle
    serial := session.serial + activation.rule.reserved }

/--
Run an action inside a deferred block. A fault while its changes are matched takes the place of the
fault that aborted it.
-/
def performDeferred (firing : Firing σ) (action : Action σ Unit) : Firing σ × Option Fault :=
  let (firing, result) := { firing with store := firing.store.enter }.perform action
  let (store, fault) := firing.store.leave
  ({ firing with store }, fault.or (match result with
    | .ok _ => none
    | .error fault => some fault))

/-- The trace entry of an activation whose action was executed, perhaps up to a fault. -/
def entryOf (firing : Firing σ) (cycle : Int) (activation : Activation) (fault : Option Fault) :
    Except Fault TraceEntry :=
  firing.explanation.map fun explanation => {
    cycle
    rule := activation.rule.name
    token := activation.token
    explanation
    status := .ofFault? fault
    error := fault.map (·.message)
    errorKind := fault.map (·.kind) }

/-- How the execution of the action of an activation is logged. -/
def noteOf (cycle : Int) (activation : Activation) : Option Fault → LogEntry
  | some fault =>
    .aborted activation.rule.name cycle (FiringStatus.ofFault? (some fault)).name fault
  | none => .fired activation.rule.name cycle

/-- Execute the action of an activation. The fault is one that no trace entry can hold. -/
def fire (session : Session) (activation : Activation) : Session × Except Fault TraceEntry :=
  match session.firingOf activation with
  | .error fault => (session, .error fault)
  | .ok firing =>
    let (firing, fault) := performDeferred firing (.ofRule activation.rule)
    let session := { session with store := firing.store, serial := firing.serial }
    (session.record (noteOf session.cycle activation fault),
      entryOf firing session.cycle activation fault)

/-- Take the next activation off the agenda and mark it as fired. -/
def select (session : Session) : Session × Option Activation :=
  let (agenda, activation) := session.network.agenda.select
  let session := session.mapNetwork ({ · with agenda })
  match activation with
  | none => (session, none)
  | some a => (session.mapNetwork (·.markFired a), some a)

def beginCycle (session : Session) : Session :=
  { session with cycle := session.cycle + 1, store := session.store.beginCycle }

/--
Fire activations until none is left or a budget is exhausted. The number counts the firings that are
left.
-/
def loop : Nat → Session → Session × Except Fault (Option Halt)
  | left, session =>
    if session.network.agenda.size = 0 then ({ session with state := .converged }, .ok none)
    else
      match left with
      | 0 => (session, .ok (some .cycleLimit))
      | left + 1 =>
        match session.exhausted with
        | .error fault => (session, .error fault)
        | .ok true => (session, .ok (some .timeBudget))
        | .ok false =>
          match session.select with
          | (session, none) => ({ session with state := .converged }, .ok none)
          | (session, some activation) =>
            match session.beginCycle.fire activation with
            -- An action that fails leaves an entry; this is a firing that no entry can hold.
            | (session, .error fault) => (session, .error fault)
            | (session, .ok entry) =>
              loop left { session with trace := session.trace ++ [entry] }

def finish (session : Session) (haltedBy : Option Halt) : Session × RunResult :=
  let session := match haltedBy with
    | none => session
    | some halt =>
      { session with state := .cycleLimitExceeded }.record
        (.halted halt.name session.cycle session.network.agenda.size)
  let result : RunResult := {
    session := session.id
    state := session.state
    facts := session.store.table.live
    trace := session.trace
    cycles := session.cycle
    haltedBy := haltedBy.map (·.name)
    digest := some session.ruleSet.digest }
  ({ session with result := some result }.record
    (.finished session.state.name session.cycle session.store.table.live.length), result)

/-- Run to the end. A session runs only once. -/
def run (session : Session) : Session × Except Fault RunResult :=
  if session.result.isSome then
    (session, .error (.sessionState ("Session " ++ session.id ++ " already ran")
      (some session.state.name)))
  else
    match session.loop session.allowance with
    | (session, .error fault) => (session, .error fault)
    | (session, .ok haltedBy) =>
      let (session, result) := session.finish haltedBy
      (session, .ok result)

/-- Does a match from scratch find nothing that has not fired? What it logs is kept. -/
def isFixpoint (session : Session) : Session × Except Fault Bool :=
  let answer := session.network.isFixpoint
  (session.mapNetwork (·.record answer.log), answer.outcome)

end Session
end ForwardChaining
