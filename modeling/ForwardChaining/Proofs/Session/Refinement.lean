import ForwardChaining.Proofs.Session.Liveness
import ForwardChaining.Proofs.Session.Lockstep

/-!
This module contains that a run does what the interpreter without a network does: in each cycle both fire
the same activation, to the same effect, and in the end both leave the same.
-/

namespace ForwardChaining

/-! ### The log of the interpreter -/

/-- A log that has grown from some changes. -/
structure Store.Extends (changes : List Change) (log : Store (List Change)) : Prop where
  listeners : log.listeners = [recorder]
  grown : changes <+: log.world

theorem Store.Extends.after {log : Store (List Change)} {changes : List Change} (h : log.Extends changes)
    (table : FactTable) (change? : Option Change) : (log.after table change?).Extends changes := by
  cases change? with
  | none => exact ⟨h.listeners, h.grown⟩
  | some change =>
    simp only [Store.after, emit]
    split
    . rw [h.listeners, deliver_single]
      exact ⟨rfl, h.grown.trans (List.prefix_append _ _)⟩
    . exact ⟨h.listeners, h.grown⟩

theorem Store.Extends.leave {log : Store (List Change)} {changes : List Change}
    (h : log.Extends changes) : log.leave.1.Extends changes := by
  unfold Store.leave
  split
  . rw [h.listeners, flush_recorder]
    exact ⟨rfl, h.grown.trans (List.prefix_append _ _)⟩
  . exact ⟨h.listeners, h.grown⟩

/-- A log of nothing but the insertions of the live facts. -/
structure Store.Lists (log : Store (List Change)) : Prop where
  listeners : log.listeners = [recorder]
  depth : log.depth = 0
  world : log.world = log.table.live.map .inserted
  stamped : log.table.Stamped

theorem Store.Lists.insert {log : Store (List Change)} (h : log.Lists) (tag data : Value) :
    (log.insert tag data).1.Lists := by
  unfold Store.insert
  split
  . exact h
  . next entries _ =>
    obtain ⟨table', ⟨fault, heq, hfollows⟩ | ⟨fact, heq, hfollows⟩⟩ :=
      log.table.follows_insert tag entries
    . rw [heq]
      exact ⟨h.listeners, h.depth, h.world.trans (congrArg _ hfollows.1.symm), hfollows.stamped h.stamped⟩
    . rw [heq]
      dsimp only
      rw [fst_publish, emit, if_pos h.depth, h.listeners, deliver_single]
      refine ⟨rfl, h.depth, ?_, hfollows.stamped h.stamped⟩
      change log.world ++ [.inserted fact] = table'.live.map .inserted
      rw [h.world, hfollows.2.1, List.map_append, List.map_singleton]

theorem Store.Lists.applyAll {log : Store (List Change)} (h : log.Lists) {mutations : List Mutation}
    (hinserts : ∀ mutation ∈ mutations, ∃ tag data, mutation = .insert tag data) :
    (log.applyAll mutations).Lists := by
  induction mutations generalizing log with
  | nil => exact h
  | cons mutation mutations ih =>
    rw [List.forall_mem_cons] at hinserts
    obtain ⟨⟨tag, data, rfl⟩, hinserts⟩ := hinserts
    have hinsert := h.insert tag data
    rw [← fst_settle] at hinsert
    exact ih hinsert hinserts

namespace Naive

variable {state : Naive} {changes : List Change}

theorem store_ofSession {session : Session} {log : Store (List Change)} (h : log.Lists)
    (hpending : log.pending = []) (htable : session.store.table = log.table) :
    (ofSession session).store = log := by
  obtain ⟨hlisteners, hdepth, hworld, -⟩ := h
  cases log
  simp only at hpending htable hlisteners hdepth hworld
  subst hpending hlisteners hdepth hworld htable
  rfl

theorem fire_eq {a : Activation} {firing : Firing (List Change)} (h : state.firingOf a = .ok firing) :
    state.fire a = ({ state with
        store := (Session.performDeferred firing (.ofRule a.rule)).1.store
        serial := (Session.performDeferred firing (.ofRule a.rule)).1.serial },
      Session.entryOf (Session.performDeferred firing (.ofRule a.rule)).1 state.cycle a
        (Session.performDeferred firing (.ofRule a.rule)).2) := by
  unfold fire
  rw [h]

theorem store_of_firingOf {a : Activation} {firing : Firing (List Change)}
    (h : state.firingOf a = .ok firing) : firing.store = state.store := by
  unfold firingOf at h
  simp only [doBind_eq_ok] at h
  obtain ⟨bindings, -, values, -, heq⟩ := h
  rw [← Except.ok.inj heq]

theorem extends_fire (h : state.store.Extends changes) (a : Activation) :
    (state.fire a).1.store.Extends changes := by
  cases hfiring : state.firingOf a with
  | error fault =>
    rw [fire, hfiring]
    exact h
  | ok firing =>
    rw [← store_of_firingOf hfiring] at h
    rw [fire_eq hfiring]
    have hperform : ((({ firing with store := firing.store.enter } : Firing (List Change)).perform
        (Action.ofRule a.rule)).1.store).Extends changes :=
      Firing.preserved_perform (fun _ hstore => hstore.after _ _) a.rule ⟨h.listeners, h.grown⟩
    exact hperform.leave

section Step

variable {a : Activation} {as : List Activation} (h : state.candidates = .ok (a :: as)) {last : Naive}

include h

theorem loop_halted : state.loop 0 = (state, .ok (some .cycleLimit)) := by
  unfold loop
  rw [h]

theorem loop_escaped {fault : Fault}
    (hfire : (state.begin (a.foremost as)).fire (a.foremost as) = (last, .error fault)) (left : Nat) :
    state.loop (left + 1) = (last, .error fault) := by
  unfold loop
  simp only [h, hfire]

theorem loop_fired {entry : TraceEntry}
    (hfire : (state.begin (a.foremost as)).fire (a.foremost as) = (last, .ok entry)) (left : Nat) :
    state.loop (left + 1) = loop left { last with trace := last.trace ++ [entry] } := by
  conv_lhs => unfold loop
  simp only [h, hfire]

end Step

theorem extends_loop (h : state.store.Extends changes) (left : Nat) :
    (state.loop left).1.store.Extends changes := by
  induction left generalizing state with
  | zero =>
    unfold loop
    split
    . exact h
    . exact h
    . exact h
  | succ left ih =>
    unfold loop
    split
    . exact h
    . exact h
    . next a as _ =>
      have hbegun : (state.begin (a.foremost as)).store.Extends changes := ⟨h.listeners, h.grown⟩
      have hfired := extends_fire hbegun (a.foremost as)
      dsimp only
      split
      . next heq =>
        rw [heq] at hfired
        exact hfired
      . next heq =>
        rw [heq] at hfired
        exact ih hfired

theorem world_prefix_run (state : Naive) (hlisteners : state.store.listeners = [recorder])
    (limit : Nat) : state.store.world <+: (state.run limit).1.store.world :=
  (extends_loop ⟨hlisteners, List.prefix_refl _⟩ limit).grown

theorem fire_prefix_loop (hlisteners : state.store.listeners = [recorder]) {a : Activation}
    {as : List Activation} (h : state.candidates = .ok (a :: as)) (left : Nat) :
    ((state.begin (a.foremost as)).fire (a.foremost as)).1.store.world
      <+: (state.loop (left + 1)).1.store.world := by
  have hbegun : (state.begin (a.foremost as)).store.Extends [] := ⟨hlisteners, List.nil_prefix⟩
  have hfired := extends_fire hbegun (a.foremost as)
  cases hfire : (state.begin (a.foremost as)).fire (a.foremost as) with
  | mk last result =>
    rw [hfire] at hfired
    cases result with
    | error fault =>
      rw [loop_escaped h hfire]
    | ok entry =>
      rw [loop_fired h hfire]
      have hlast : ({ last with trace := last.trace ++ [entry] } : Naive).store.Extends
          last.store.world := ⟨hfired.listeners, List.prefix_refl _⟩
      exact (extends_loop hlast left).grown

end Naive

/-! ### Steps -/

namespace Session

/-- The session and the interpreter know the same facts, and have fired the same to the same effect. -/
structure Simulates (ruleSet : RuleSet) (session : Session) (state : Naive) : Prop where
  rules : state.rules = ruleSet.rules
  stores : Store.Paired Network.listener 0 session.store state.store
  faithful : session.network.Faithful
  kept : session.network.Kept ruleSet state.fired (Change.replay [] state.store.world)
  facts : session.network.working.facts = Change.replay [] state.store.world
  cycle : state.cycle = session.cycle
  serial : state.serial = session.serial
  trace : state.trace = session.trace
  budget : session.timeBudget = none

section Step

variable {ruleSet : RuleSet} {session : Session} {state : Naive} (h : Simulates ruleSet session state)

include h

theorem Simulates.live : state.store.table.live.Perm session.network.working.facts := by
  rw [h.facts]
  exact h.stores.live

theorem Simulates.same_rules : state.rules = session.network.ruleSet.rules := by
  rw [h.rules, h.kept.same]

theorem Simulates.candidates : ∃ found, state.candidates = .ok found
    ∧ ∀ a, a ∈ found ↔ ∃ key b, session.network.agenda.find? key = some b ∧ a = b.unnumbered :=
  Network.candidates_ok h.faithful h.kept.scheduled h.same_rules h.kept.marked.symm h.live

theorem Simulates.candidates_nil {found : List Activation} (hfound : state.candidates = .ok found) :
    found = [] ↔ session.network.agenda.size = 0 := by
  obtain ⟨as, has, hiff⟩ := h.candidates
  obtain rfl := Except.ok.inj (hfound.symm.trans has)
  rw [Agenda.size_eq_zero_iff, List.eq_nil_iff_forall_not_mem]
  constructor
  . intro hnone key
    cases hfind : session.network.agenda.find? key with
    | none => rfl
    | some b => exact absurd ((hiff _).mpr ⟨key, b, hfind, rfl⟩) (hnone _)
  . intro hnone a ha
    obtain ⟨key, b, hb, -⟩ := (hiff a).mp ha
    rw [hnone] at hb
    cases hb

theorem Simulates.firingOf {a : Activation} {tokens : List Token}
    (hmatched : session.network.matched a.rule.name = some (a.rule, tokens))
    (htoken : a.token ∈ tokens) :
    state.firingOf a.unnumbered
      = (session.firingOf a).map fun firing => firing.over state.store := by
  have hsound := h.faithful.sound
  have hbindings : ({ facts := state.store.table.live } : WorkingMemory).bindings a.rule.vars a.token
      = session.network.bindings a :=
    WorkingMemory.bindings_congr (WorkingMemory.find_perm hsound.distinct h.live
      (Network.live_of_matched hsound hmatched a.token htoken)) _
  obtain ⟨memory, hmemory, hrule, -⟩ := Network.exists_of_matched hmatched
  have hserved := h.faithful.coherent.served hsound (h.faithful.tame _).exact hmemory
  rw [hrule] at hserved
  have hvalues := fun bindings => Network.valuesOf_eq (hsound.comparable h.live) hserved session.serial
    bindings []
  unfold Naive.firingOf Session.firingOf Network.aggregateValues
  simp only [Activation.unnumbered, hbindings, hmemory, h.serial, h.cycle, hvalues]
  cases session.network.bindings a with
  | error fault => rfl
  | ok bindings =>
    cases hof : Network.valuesOf session.serial bindings [] memory.stages with
    | error fault => simp only [bind, Except.bind, hof, Except.map]
    | ok values =>
      simp only [bind, Except.bind, hof, Except.map]
      rfl

theorem Simulates.select (hwellFormed : ruleSet.WellFormed) {next : Session} {b : Activation}
    (hselect : session.select = (next, some b)) {a : Activation} {as : List Activation}
    (hcandidates : state.candidates = .ok (a :: as)) :
    a.foremost as = b.unnumbered ∧ Simulates ruleSet next.beginCycle (state.begin b.unnumbered)
      ∧ ∃ tokens, next.beginCycle.network.matched b.rule.name = some (b.rule, tokens)
        ∧ b.token ∈ tokens := by
  obtain ⟨agenda, hagenda, rfl⟩ := select_eq_some hselect
  obtain ⟨hselected, hscheduled⟩ := Network.selected_of_select h.kept.scheduled hagenda
  refine ⟨?_,
    ⟨h.rules, (h.stores.mapWorld _).beginCycle, ?_, ?_, ?_, ?_, h.serial, h.trace, h.budget⟩, ?_⟩
  . obtain ⟨found, hfound, hiff⟩ := h.candidates
    obtain rfl := Except.ok.inj (hcandidates.symm.trans hfound)
    refine hselected.foremost h.kept.sound ?_ h.kept.scheduled ?_ hiff
    . rw [h.kept.same]
      exact hwellFormed.orders
    . intro fact hfact
      exact (h.stores.stamped.stamps fact (h.live.mem_iff.mpr hfact)).1
  . exact h.faithful.frame hselected.ruleSet hselected.working hselected.memories
  . exact h.kept.frame hselected.ruleSet hselected.working hselected.memories
      (hselected.fired.trans (congrArg (b.refraction :: ·) h.kept.marked)) hscheduled
  . exact (congrArg WorkingMemory.facts hselected.working).trans h.facts
  . exact congrArg (· + 1) h.cycle
  . exact hselected.matched

theorem Simulates.follow (hpredicates : SharesPredicates ruleSet.rules) {changes : List Change}
    (hlegal : Change.Legal (Change.replay [] state.store.world) changes)
    (hregular : ∀ change ∈ changes, ∀ fact ∈ change.brings, fact.Regular ruleSet.rules) :
    (Store.flush [Network.listener] session.network changes).2 = none
      ∧ (Network.listener.follow session.network changes).Faithful
      ∧ (Network.listener.follow session.network changes).Kept ruleSet state.fired
        (Change.replay [] (state.store.world ++ changes))
      ∧ (Network.listener.follow session.network changes).working.facts
        = Change.replay [] (state.store.world ++ changes) := by
  have hkept := h.kept.follow hlegal
  rw [← Change.replay_append] at hkept
  rw [← h.kept.same] at hpredicates hregular
  rw [← h.facts] at hlegal
  obtain ⟨hfaithful, -, hfacts⟩ := Network.faithful_follow h.faithful hpredicates hlegal hregular
  rw [h.facts, ← Change.replay_append] at hfacts
  exact ⟨Network.flush_faithful h.faithful hpredicates hlegal hregular, hfaithful, hkept, hfacts⟩

theorem Simulates.fire (hpredicates : SharesPredicates ruleSet.rules) {a : Activation}
    {tokens : List Token} (hmatched : session.network.matched a.rule.name = some (a.rule, tokens))
    (htoken : a.token ∈ tokens)
    (hregular : ∀ change ∈ (state.fire a.unnumbered).1.store.world, ∀ fact ∈ change.brings,
      fact.Regular ruleSet.rules) :
    (state.fire a.unnumbered).2 = (session.fire a).2
      ∧ Simulates ruleSet (session.fire a).1 (state.fire a.unnumbered).1 := by
  have hlogged := h.firingOf hmatched htoken
  cases hfiring : session.firingOf a with
  | error fault =>
    rw [hfiring] at hlogged
    rw [Session.fire, hfiring, Naive.fire, hlogged]
    exact ⟨rfl, h⟩
  | ok firing =>
    rw [hfiring] at hlogged
    have hstores := h.stores
    rw [← store_of_firingOf hfiring] at hstores
    obtain ⟨changes, hperformed⟩ := performed hstores a.rule
    rw [Naive.fire_eq hlogged] at hregular ⊢
    rw [fire_eq hfiring]
    change ∀ change ∈ (performDeferred (firing.over state.store) (.ofRule a.rule)).1.store.world,
      ∀ fact ∈ change.brings, _ at hregular
    rw [hperformed.delivered, List.forall_mem_append] at hregular
    -- The network follows all that was delivered, so the listener adds no fault of its own.
    obtain ⟨hok, hfaithful, hkept, hfacts⟩ := h.follow hpredicates hperformed.legal hregular.2
    rw [network, ← store_of_firingOf hfiring] at hok hfaithful hkept hfacts
    rw [← hperformed.world] at hfaithful hkept hfacts
    rw [← hperformed.delivered] at hkept hfacts
    refine ⟨?_, h.rules, hperformed.stores.mapWorld _, hfaithful.frame rfl rfl rfl,
      hkept.frame rfl rfl rfl hkept.marked (hkept.scheduled.record _), hfacts, h.cycle, ?_, h.trace,
      h.budget⟩
    . change entryOf (performDeferred (firing.over state.store) (.ofRule a.rule)).1 state.cycle
        a.unnumbered (performDeferred (firing.over state.store) (.ofRule a.rule)).2 = _
      rw [hperformed.alike, hperformed.fault hok, h.cycle]
      rfl
    . change (performDeferred (firing.over state.store) (.ofRule a.rule)).1.serial = _
      rw [hperformed.alike]
      rfl

/-- Where something matches, the session selects what the interpreter does, and fires it to its effect. -/
theorem Simulates.step (hwellFormed : ruleSet.WellFormed)
    (hpredicates : SharesPredicates ruleSet.rules) {a : Activation} {as : List Activation}
    (hfound : state.candidates = .ok (a :: as))
    (hregular : ∀ change ∈ ((state.begin (a.foremost as)).fire (a.foremost as)).1.store.world,
      ∀ fact ∈ change.brings, fact.Regular ruleSet.rules) :
    ∃ next b, session.select = (next, some b)
      ∧ ((state.begin (a.foremost as)).fire (a.foremost as)).2 = (next.beginCycle.fire b).2
      ∧ Simulates ruleSet (next.beginCycle.fire b).1
        ((state.begin (a.foremost as)).fire (a.foremost as)).1 := by
  cases hselect : session.select with
  | mk next selected =>
  cases selected with
  | none => cases (h.candidates_nil hfound).mpr (size_of_select h.kept.scheduled hselect)
  | some b =>
    obtain ⟨hforemost, hbegun, tokens, hmatched, htoken⟩ := h.select hwellFormed hselect hfound
    rw [hforemost] at hregular ⊢
    exact ⟨next, b, rfl, hbegun.fire hpredicates hmatched htoken hregular⟩

theorem Simulates.loop_idle (hfound : state.candidates = .ok []) (left : Nat) :
    state.Proceeds left ∧ (state.loop left).2 = (session.loop left).2
      ∧ Simulates ruleSet (session.loop left).1 (state.loop left).1 := by
  rw [Naive.loop_idle hfound, Session.loop_idle ((h.candidates_nil hfound).mp rfl)]
  exact ⟨.idle hfound, rfl, { h with }⟩

end Step

/-! ### Runs -/

theorem Simulates.loop {ruleSet : RuleSet} (hwellFormed : ruleSet.WellFormed)
    (hpredicates : SharesPredicates ruleSet.rules) {session : Session} {state : Naive}
    (h : Simulates ruleSet session state) (left : Nat)
    (hregular : ∀ change ∈ (state.loop left).1.store.world, ∀ fact ∈ change.brings,
      fact.Regular ruleSet.rules) :
    state.Proceeds left ∧ (state.loop left).2 = (session.loop left).2
      ∧ Simulates ruleSet (session.loop left).1 (state.loop left).1 := by
  induction left generalizing session state with
  | zero =>
    obtain ⟨found, hfound, -⟩ := h.candidates
    cases found with
    | nil => exact h.loop_idle hfound 0
    | cons a as =>
      have hsize : session.network.agenda.size ≠ 0 := fun hsize => by
        cases (h.candidates_nil hfound).mpr hsize
      rw [Naive.loop_halted hfound, loop_halted hsize]
      exact ⟨.halted hfound, rfl, h⟩
  | succ left ih =>
    obtain ⟨found, hfound, -⟩ := h.candidates
    cases found with
    | nil => exact h.loop_idle hfound (left + 1)
    | cons a as =>
      have hsize : session.network.agenda.size ≠ 0 := fun hsize => by
        cases (h.candidates_nil hfound).mpr hsize
      -- The changes of this round are among those of the whole loop, so their facts are regular.
      have hgrown := Naive.fire_prefix_loop h.stores.recorded.listeners hfound left
      obtain ⟨next, b, hselect, hresult, hnext⟩ := h.step hwellFormed hpredicates hfound
        fun change hchange => hregular change (hgrown.subset hchange)
      cases hfire : next.beginCycle.fire b with
      | mk last result =>
      cases hlogged : (state.begin (a.foremost as)).fire (a.foremost as) with
      | mk state' result' =>
      rw [hfire, hlogged] at hresult hnext
      simp only at hresult hnext
      subst hresult
      cases result' with
      | error fault =>
        rw [Naive.loop_escaped hfound hlogged, loop_escaped h.budget hsize hselect hfire]
        exact ⟨.escaped hfound hlogged, rfl, hnext⟩
      | ok entry =>
        rw [Naive.loop_fired hfound hlogged] at hregular ⊢
        rw [loop_fired h.budget hsize hselect hfire]
        have hgoing : Simulates ruleSet { last with trace := last.trace ++ [entry] }
            { state' with trace := state'.trace ++ [entry] } :=
          { hnext with trace := congrArg (· ++ [entry]) hnext.trace }
        obtain ⟨hproceeds, hrest⟩ := ih hgoing hregular
        exact ⟨.fired hfound hlogged hproceeds, hrest⟩

theorem Simulates.outcome {ruleSet : RuleSet} {session : Session} {state : Naive}
    (h : Simulates ruleSet session state) (haltedBy : Option Halt)
    (hstate : haltedBy = none → session.state = .converged) :
    (session.finish haltedBy).2.outcome = state.outcome haltedBy := by
  unfold Naive.outcome
  rw [h.stores.table, h.trace]
  cases haltedBy with
  | none =>
    rw [RunResult.outcome, Outcome.mk.injEq]
    exact ⟨hstate rfl, rfl, rfl, rfl⟩
  | some halt => rfl

theorem finish_frame (session : Session) (haltedBy : Option Halt) :
    (session.finish haltedBy).1.trace = session.trace ∧ (session.finish haltedBy).1.cycle = session.cycle
      ∧ (session.finish haltedBy).1.store.table = session.store.table := by
  cases haltedBy <;> exact ⟨rfl, rfl, rfl⟩

/-! ### Creation -/

section Creation

variable {ruleSet : RuleSet} (hwellFormed : ruleSet.WellFormed) {options : SessionOptions}
  {journal : List LogEntry} {session : Session}

include hwellFormed

theorem simulates_ofRuleSet (hcreate : ofRuleSet options journal ruleSet = .ok session)
    (hbudget : session.timeBudget = none) :
    session.store.silent.Lists
      ∧ Simulates ruleSet session { Naive.ofSession session with store := session.store.silent } := by
  obtain ⟨hruleSet, hstore⟩ := ofRuleSet_eq_ok hcreate
  obtain ⟨hfaithful, -, hfacts⟩ := faithful_ofRuleSet hwellFormed hcreate
  have hstamped : session.store.table.Stamped := by
    rw [hstore]
    exact ⟨Int.le_refl 0, by simp⟩
  obtain ⟨hlisteners, hrecorded⟩ := recorded_ofRuleSet hcreate
  have hdepth : session.store.depth = 0 := by
    rw [hstore]
  have hlive : session.store.table.live = [] := by
    rw [hstore]
  refine ⟨⟨rfl, hdepth, ?_, hstamped⟩, ?_⟩
  . change [] = session.store.table.live.map _
    rw [hlive]
    rfl
  . exact ⟨congrArg RuleSet.rules hruleSet, ⟨rfl, rfl, ⟨hdepth, hdepth⟩, hlisteners, hrecorded, hstamped⟩,
      hfaithful, kept_created hwellFormed hcreate, hfacts, rfl, rfl, rfl, hbudget⟩

theorem simulates_createFrom (hpredicates : SharesPredicates ruleSet.rules)
    {facts : List InitialFact} (hcreate : createFrom options journal ruleSet facts = .ok session)
    (hbudget : session.timeBudget = none)
    (hregular : ∀ change ∈ (Naive.ofSession session).store.world, ∀ fact ∈ change.brings,
      fact.Regular ruleSet.rules) :
    session.result = none ∧ Simulates ruleSet session (Naive.ofSession session) := by
  obtain ⟨empty, mutations, entries, hempty, hinserts, rfl⟩ := createFrom_eq_ok hcreate
  obtain ⟨-, -, hfirst⟩ := ofRuleSet_fresh hempty
  obtain ⟨hlists, h⟩ := simulates_ofRuleSet hwellFormed hempty hbudget
  have hmirrors := (Store.mirrors_silent h.stores.listeners).applyAll mutations
  have hrecorded := h.stores.recorded.applyAll mutations
  have hlists := hlists.applyAll hinserts
  have hpending := hrecorded.idle hlists.depth
  have hlegal := hrecorded.legal
  rw [hpending, List.append_nil] at hlegal
  have hstore : (Naive.ofSession (mapNetwork (·.record entries)
      { empty with store := empty.store.applyAll mutations })).store
        = empty.store.silent.applyAll mutations :=
    Naive.store_ofSession hlists hpending hmirrors.table
  rw [hstore] at hregular
  obtain ⟨-, hfaithful, hkept, hfacts⟩ := h.follow hpredicates hlegal hregular
  have hworld : Network.listener.follow empty.network _ = _ := hmirrors.world.symm
  rw [hworld] at hfaithful hkept hfacts
  refine ⟨hfirst, h.rules, ?_, hfaithful.frame rfl rfl rfl, ?_, ?_, h.cycle, h.serial, h.trace, hbudget⟩
  . rw [hstore]
    exact ⟨hmirrors.table.symm, hmirrors.pending.symm, ⟨hmirrors.depth.trans hlists.depth, hlists.depth⟩,
      hmirrors.listeners, hrecorded, hlists.stamped⟩
  . rw [hstore]
    exact hkept.frame rfl rfl rfl hkept.marked (hkept.scheduled.record entries)
  . rw [hstore]
    exact hfacts

end Creation

theorem allowance_createFrom {options : SessionOptions} {journal : List LogEntry} {ruleSet : RuleSet}
    {facts : List InitialFact} {session : Session}
    (h : createFrom options journal ruleSet facts = .ok session) {limit : Int}
    (hlimit : options.cycleLimit = some (.int limit)) : session.allowance = limit.toNat := by
  obtain ⟨empty, mutations, entries, hempty, -, rfl⟩ := createFrom_eq_ok h
  obtain ⟨-, hcycle, -⟩ := ofRuleSet_fresh hempty
  have hlimit' := ofRuleSet_cycleLimit hempty hlimit
  unfold allowance
  simp [mapNetwork, hlimit', hcycle, Value.number?, Number.value?]

theorem Simulates.run {ruleSet : RuleSet} (hwellFormed : ruleSet.WellFormed)
    (hpredicates : SharesPredicates ruleSet.rules) {session : Session} {state : Naive}
    (h : Simulates ruleSet session state) {fired : List Activation}
    (hhistory : History ruleSet fired session) (hfirst : session.result = none)
    (hregular : ∀ change ∈ (state.run session.allowance).1.store.world, ∀ fact ∈ change.brings,
      fact.Regular ruleSet.rules) :
    session.run.2.map RunResult.outcome = (state.run session.allowance).2
      ∧ session.run.1.trace = (state.run session.allowance).1.trace
      ∧ session.run.1.cycle = (state.run session.allowance).1.cycle
      ∧ session.run.1.store.table = (state.run session.allowance).1.store.table := by
  obtain ⟨-, hresult, hlast⟩ := h.loop hwellFormed hpredicates session.allowance hregular
  obtain ⟨_, -, hends⟩ := loop_ends hwellFormed hhistory h.budget session.allowance
  unfold Session.run Naive.run
  rw [hfirst, if_neg (by simp)]
  cases hloop : session.loop session.allowance with
  | mk last result =>
  cases hlogged : state.loop session.allowance with
  | mk state' result' =>
  rw [hloop, hlogged] at hresult hlast
  rw [hloop] at hends
  simp only at hresult hlast
  subst hresult
  cases result' with
  | error fault => exact ⟨rfl, hlast.trace.symm, hlast.cycle.symm, hlast.stores.table.symm⟩
  | ok haltedBy =>
    have hstate : haltedBy = none → last.state = .converged := by
      rintro rfl
      cases hends with
      | converged _ _ hstate => exact hstate
    obtain ⟨htrace, hcycle, htable⟩ := finish_frame last haltedBy
    exact ⟨congrArg Except.ok (hlast.outcome haltedBy hstate), htrace.trans hlast.trace.symm,
      hcycle.trans hlast.cycle.symm, htable.trans hlast.stores.table.symm⟩

/-- The interpreter never fails to match what it finds in a new session, and does what the session does. -/
theorem run_createFrom {ruleSet : RuleSet} (hwellFormed : ruleSet.WellFormed) {options : SessionOptions}
    {journal : List LogEntry} {facts : List InitialFact} {session : Session}
    (hcreate : createFrom options journal ruleSet facts = .ok session)
    (hbudget : session.timeBudget = none) (hpredicates : SharesPredicates ruleSet.rules)
    (hregular : ∀ change ∈ ((Naive.ofSession session).run session.allowance).1.store.world,
      ∀ fact ∈ change.brings, fact.Regular ruleSet.rules) :
    (Naive.ofSession session).rules = ruleSet.rules
      ∧ (Naive.ofSession session).Proceeds session.allowance
      ∧ session.run.2.map RunResult.outcome = ((Naive.ofSession session).run session.allowance).2
      ∧ session.run.1.trace = ((Naive.ofSession session).run session.allowance).1.trace
      ∧ session.run.1.cycle = ((Naive.ofSession session).run session.allowance).1.cycle
      ∧ session.run.1.store.table = ((Naive.ofSession session).run session.allowance).1.store.table := by
  have hgrown := Naive.world_prefix_run (Naive.ofSession session) rfl session.allowance
  obtain ⟨hfirst, h⟩ := simulates_createFrom hwellFormed hpredicates hcreate hbudget
    fun change hchange => hregular change (hgrown.subset hchange)
  obtain ⟨hproceeds, -⟩ := h.loop hwellFormed hpredicates session.allowance hregular
  exact ⟨h.rules, hproceeds,
    h.run hwellFormed hpredicates (history_createFrom hcreate) hfirst hregular⟩

section Refinement

variable {spec : RuleSetSpec} {ruleSet : RuleSet} (hcompile : spec.compile = .ok ruleSet)
  (hpredicates : SharesPredicates ruleSet.rules) {options : SessionOptions} {journal : List LogEntry}
  {facts : List InitialFact} {session : Session}
  (hcreate : createFrom options journal ruleSet facts = .ok session)
  (hbudget : session.timeBudget = none)

include hcompile hpredicates hcreate hbudget

end Refinement

/-- The session that is created with an open order and may fire two activations. -/
def orderSession (digest : String) : Session :=
  ({ openSession digest with cycleLimit := .int 2 } : Session).record
    (.created (closingRuleSet digest).name 2 1 2)

theorem createFrom_order :
    createFrom { id := "s", cycleLimit := some (.int 2) } [] (closingRuleSet closingSpec.digest)
      [.checked { type := "order", data := [("open", .bool true)] }]
        = .ok (orderSession closingSpec.digest) := by
  have hcreated : ofRuleSet { id := "s", cycleLimit := some (.int 2) } [] (closingRuleSet closingSpec.digest)
      = .ok { closingSession closingSpec.digest with cycleLimit := .int 2 } :=
    ofRuleSet_eq_ok_iff.mpr ⟨{}, ofEnvironment_nil, rfl,
      (Network.start_settled (wellFormed_of_compile compile_closingSpec)).1, rfl⟩
  have hok : ((closingSession closingSpec.digest).store.apply
      (.insert (.text "order") (.record [("open", .bool true)]))).2.isNone := by
    decide +kernel
  have hcounts : (openSession closingSpec.digest).store.table.live.length = 1
      ∧ (openSession closingSpec.digest).network.agenda.size = 2 := by
    decide +kernel
  have hloaded : ({ closingSession closingSpec.digest with cycleLimit := .int 2 } : Session).load
      [.checked { type := "order", data := [("open", .bool true)] }]
        = .ok { openSession closingSpec.digest with cycleLimit := .int 2 } :=
    load_checked (Option.isNone_iff_eq_none.mp hok) rfl
  unfold createFrom
  simp only [doBind_eq_ok]
  refine ⟨_, hcreated, _, hloaded, ?_⟩
  rw [orderSession, ← hcounts.1, ← hcounts.2]
  rfl

theorem allowance_order : (orderSession closingSpec.digest).allowance = 2 :=
  allowance_createFrom createFrom_order rfl

theorem regular_order : ∀ change ∈ ((Naive.ofSession (orderSession closingSpec.digest)).run
    (orderSession closingSpec.digest).allowance).1.store.world, ∀ fact ∈ change.brings,
      fact.Regular closingRules := by
  have hplain : ∀ change ∈ ((Naive.ofSession (orderSession closingSpec.digest)).run 2).1.store.world,
      change.Plain := by
    decide +kernel
  rw [allowance_order]
  exact fun change hchange => (hplain change hchange).regular closingRules

end Session
end ForwardChaining
