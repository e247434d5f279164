import ForwardChaining.Proofs.Agenda.Policy
import ForwardChaining.Proofs.Session.Completion

/-!
This module contains an interpreter without a network. It matches all rules from scratch in each cycle and
fires the first match, in the documented order, of those that have not fired.
-/

namespace ForwardChaining

namespace Activation

/-- The activation without the number that tells it from others of its kind. -/
def unnumbered (a : Activation) : Activation :=
  { a with serial := 0 }

/-- The first of some activations in the order of selection. -/
def foremost (a : Activation) (as : List Activation) : Activation :=
  as.foldl (fun best b => if b.compare best = .lt then b else best) a

theorem foremost_spec (a : Activation) (as : List Activation) :
    a.foremost as ∈ a :: as ∧ ∀ b ∈ a :: as, ((a.foremost as).compare b).isLE := by
  induction as generalizing a with
  | nil =>
    refine ⟨List.mem_cons_self .., ?_⟩
    intro b hb
    rw [List.mem_singleton.mp hb, foremost, List.foldl_nil, compare_self]
    rfl
  | cons c as ih =>
    obtain ⟨best, hbest, heq, hof⟩ : ∃ best, (best = a ∨ best = c)
        ∧ a.foremost (c :: as) = best.foremost as
        ∧ ((best.compare a).isLE ∧ (best.compare c).isLE) := by
      by_cases hlt : c.compare a = .lt
      . refine ⟨c, .inr rfl, by rw [foremost, List.foldl_cons, if_pos hlt, foremost], ?_, ?_⟩
        . rw [hlt]
          rfl
        . rw [compare_self]
          rfl
      . refine ⟨a, .inl rfl, by rw [foremost, List.foldl_cons, if_neg hlt, foremost], ?_, ?_⟩
        . rw [compare_self]
          rfl
        . rw [compare_swap] at hlt
          cases hcompare : a.compare c with
          | lt | eq => rfl
          | gt => exact absurd (by rw [hcompare]; rfl) hlt
    obtain ⟨hmem, hleast⟩ := ih best
    rw [List.forall_mem_cons] at hleast
    rw [heq, List.forall_mem_cons, List.forall_mem_cons]
    refine ⟨?_, Std.TransCmp.isLE_trans hleast.1 hof.1, Std.TransCmp.isLE_trans hleast.1 hof.2, hleast.2⟩
    rcases List.mem_cons.mp hmem with hself | hlater
    . rw [hself]
      rcases hbest with rfl | rfl <;> simp
    . exact List.mem_cons_of_mem _ (List.mem_cons_of_mem _ hlater)

theorem foremost_eq {a best : Activation} {as : List Activation} (hbest : best ∈ a :: as)
    (hleast : ∀ b ∈ a :: as, (best.compare b).isLE)
    (halone : ∀ b ∈ a :: as, best.compare b = .eq → b = best) : a.foremost as = best := by
  obtain ⟨hmem, hfirst⟩ := foremost_spec a as
  apply halone _ hmem
  have hbefore := hleast _ hmem
  have hafter := hfirst _ hbest
  rw [compare_swap] at hafter
  cases hcompare : best.compare (a.foremost as) with
  | eq => rfl
  | lt => simp [hcompare] at hafter
  | gt => simp [hcompare] at hbefore

end Activation

/-! ### The interpreter -/

/-- A session without a network: it knows the facts, what has been done to them, and what has fired. -/
structure Naive where
  rules : List Rule
  store : Store (List Change)
  fired : List RefractionKey := []
  cycle : Int := 0
  serial : Nat := 0
  trace : List TraceEntry := []

/-- What a run is judged by. -/
structure Outcome where
  state : TerminalState
  facts : List Fact
  trace : List TraceEntry
  haltedBy : Option String

/-- What a result says. -/
def RunResult.outcome (result : RunResult) : Outcome where
  state := result.state
  facts := result.facts
  trace := result.trace
  haltedBy := result.haltedBy

namespace Naive

/-- A match of a rule, with the versions and the stamps of its facts. -/
def activationOf (facts : List Fact) (rule : Rule) (token : Token) : Except Fault Activation := do
  let bound ← token.mapM ({ facts } : WorkingMemory).find
  return {
    rule
    token
    recency := (bound.map (·.recency)).mergeSort fun a b => b ≤ a
    versions := bound.map (·.version) }

/-- All matches of a rule over some facts. -/
def activationsOf (facts : List Fact) (rule : Rule) : Except Fault (List Activation) := do
  (← (rule.tokens facts).outcome).mapM (activationOf facts rule)

/-- What matches the live facts and has not fired. -/
def candidates (state : Naive) : Except Fault (List Activation) := do
  let found ← state.rules.mapM (activationsOf state.store.table.live)
  return found.flatten.filter (!state.fired.contains ·.refraction)

/-- The values of the named aggregates among some conditions, added to those of the conditions before. -/
def valuesOf (facts : List Fact) (n : Nat) (bindings : Bindings) (values : Fields) :
    List Condition → Except Fault Fields
  | [] => .ok values
  | .aggregate filter keys test :: conditions =>
    match test.bind with
    | some name => do
      let key ← bindingKey keys bindings
      let contributions ← (Logged.gather (Condition.contributionOf filter keys test key)
        (Condition.candidates filter facts)).outcome
      let value ← test.function.value n contributions
      valuesOf facts (n + 1) bindings (values.set name value) conditions
    | none => valuesOf facts n bindings values conditions
  | _ :: conditions => valuesOf facts n bindings values conditions

/-- A new firing of an activation. -/
def firingOf (state : Naive) (a : Activation) : Except Fault (Firing (List Change)) := do
  let facts := state.store.table.live
  let bindings ← ({ facts } : WorkingMemory).bindings a.rule.vars a.token
  let values ← valuesOf facts state.serial bindings [] a.rule.conditions
  return {
    store := state.store
    rule := a.rule.name
    bindings
    values
    cycle := .int state.cycle
    serial := state.serial + a.rule.reserved }

/-- Execute the action of an activation. -/
def fire (state : Naive) (a : Activation) : Naive × Except Fault TraceEntry :=
  match state.firingOf a with
  | .error fault => (state, .error fault)
  | .ok firing =>
    let (firing, fault) := Session.performDeferred firing (.ofRule a.rule)
    ({ state with store := firing.store, serial := firing.serial },
      Session.entryOf firing state.cycle a fault)

/-- Begin the cycle in which an activation fires. -/
def begin (state : Naive) (a : Activation) : Naive :=
  { state with
    cycle := state.cycle + 1, store := state.store.beginCycle, fired := a.refraction :: state.fired }

/-- Fire what comes first until nothing matches, or nothing is left of the cycle limit. -/
def loop : Nat → Naive → Naive × Except Fault (Option Halt)
  | left, state =>
    match state.candidates with
    | .error fault => (state, .error fault)
    | .ok [] => (state, .ok none)
    | .ok (a :: as) =>
      match left with
      | 0 => (state, .ok (some .cycleLimit))
      | left + 1 =>
        match (state.begin (a.foremost as)).fire (a.foremost as) with
        | (state, .error fault) => (state, .error fault)
        | (state, .ok entry) => loop left { state with trace := state.trace ++ [entry] }

theorem loop_idle {state : Naive} (h : state.candidates = .ok []) (left : Nat) :
    state.loop left = (state, .ok none) := by
  unfold loop
  rw [h]

/-- What matches can be told in each cycle of a loop that may fire so many activations. -/
inductive Proceeds : Nat → Naive → Prop where
  | idle {left : Nat} {state : Naive} (h : state.candidates = .ok []) : Proceeds left state
  | halted {state : Naive} {a : Activation} {as : List Activation}
      (h : state.candidates = .ok (a :: as)) : Proceeds 0 state
  | escaped {left : Nat} {state last : Naive} {a : Activation} {as : List Activation} {fault : Fault}
      (h : state.candidates = .ok (a :: as))
      (hfire : (state.begin (a.foremost as)).fire (a.foremost as) = (last, .error fault)) :
      Proceeds (left + 1) state
  | fired {left : Nat} {state last : Naive} {a : Activation} {as : List Activation} {entry : TraceEntry}
      (h : state.candidates = .ok (a :: as))
      (hfire : (state.begin (a.foremost as)).fire (a.foremost as) = (last, .ok entry))
      (hrest : Proceeds left { last with trace := last.trace ++ [entry] }) : Proceeds (left + 1) state

/-- What a run leaves. -/
def outcome (state : Naive) (haltedBy : Option Halt) : Outcome where
  state := if haltedBy.isSome then .cycleLimitExceeded else .converged
  facts := state.store.table.live
  trace := state.trace
  haltedBy := haltedBy.map (·.name)

/-- A run that may fire so many activations. -/
def run (state : Naive) (limit : Nat) : Naive × Except Fault Outcome :=
  let (last, haltedBy) := state.loop limit
  (last, haltedBy.map last.outcome)

/-- A session without its network. As far as it knows, the facts were inserted and nothing else happened. -/
def ofSession (session : Session) : Naive where
  rules := session.ruleSet.rules
  store := {
    table := session.store.table
    listeners := [recorder]
    world := session.store.table.live.map .inserted }
  cycle := session.cycle
  serial := session.serial
  trace := session.trace

end Naive
end ForwardChaining
