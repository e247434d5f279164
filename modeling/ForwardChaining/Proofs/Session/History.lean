import ForwardChaining.Proofs.Session.Action
import ForwardChaining.Proofs.Session.Create
import ForwardChaining.Proofs.Session.Following

/-!
This module contains the states that a session can be in, and what holds in all of them: the agenda is in
step with the matches, and what was selected is what has fired.
-/

namespace ForwardChaining

/-- What marks a selected activation as fired. -/
def Activation.refraction (a : Activation) : RefractionKey :=
  Network.refractionKey a.rule a.token a.versions

namespace Session

/--
The states of a session of a rule set, with what it has selected so far, the latest first. Whoever holds
the session changes facts, selects, and lets it run; an action that is cut short leaves its changes.
-/
inductive History (ruleSet : RuleSet) : List Activation → Session → Prop
  | created {options : SessionOptions} {journal : List LogEntry} {session : Session}
      (hcreated : ofRuleSet options journal ruleSet = .ok session) : History ruleSet [] session
  | mutated {fired : List Activation} {session : Session} (h : History ruleSet fired session)
      (mutation : Mutation) :
      History ruleSet fired { session with store := (session.store.apply mutation).1 }
  | subscribed {fired : List Activation} {session : Session} (h : History ruleSet fired session)
      {listener : Listener Network} (hwatches : listener.Watches) :
      History ruleSet fired { session with store := session.store.subscribe listener }
  | idle {fired : List Activation} {session next : Session} (h : History ruleSet fired session)
      (hselect : session.select = (next, none)) : History ruleSet fired next
  | selected {fired : List Activation} {session next : Session} (h : History ruleSet fired session)
      {a : Activation} (hselect : session.select = (next, some a)) : History ruleSet (a :: fired) next
  | fired {fired : List Activation} {session next last : Session} (h : History ruleSet fired session)
      {a : Activation} (hselect : session.select = (next, some a)) {entry : TraceEntry}
      (hfire : next.beginCycle.fire a = (last, .ok entry)) :
      History ruleSet (a :: fired) { last with trace := last.trace ++ [entry] }
  | escaped {fired : List Activation} {session next last : Session} (h : History ruleSet fired session)
      {a : Activation} (hselect : session.select = (next, some a)) {fault : Fault}
      (hfire : next.beginCycle.fire a = (last, .error fault)) : History ruleSet (a :: fired) last
  | logged {fired : List Activation} {session : Session} (h : History ruleSet fired session)
      (entries : List LogEntry) : History ruleSet fired (session.mapNetwork (·.record entries))
  | noted {fired : List Activation} {session : Session} (h : History ruleSet fired session)
      (state : TerminalState) (cycle : Int) (serial : Nat) (result : Option RunResult) :
      History ruleSet fired { session with state, cycle, serial, result }

/-! ### Firing -/

section Fire

variable {ruleSet : RuleSet} {fired : List RefractionKey}

theorem attended_performDeferred {firing : Firing Network}
    (h : firing.store.Attended ruleSet fired) (rule : Rule) :
    (performDeferred firing (.ofRule rule)).1.store.Attended ruleSet fired := by
  have hperform : ((({ firing with store := firing.store.enter } : Firing Network).perform
      (Action.ofRule rule)).1.store).Attended ruleSet fired :=
    Firing.preserved_perform (fun hfollows hstore => hstore.after hfollows) rule h.enter
  exact hperform.leave

theorem store_of_firingOf {session : Session} {a : Activation} {firing : Firing}
    (h : session.firingOf a = .ok firing) : firing.store = session.store := by
  unfold firingOf at h
  simp only [doBind_eq_ok] at h
  obtain ⟨bindings, -, values, -, heq⟩ := h
  rw [← Except.ok.inj heq]

theorem attended_record {session : Session} (h : session.store.Attended ruleSet fired)
    (entries : List LogEntry) :
    (session.mapNetwork (·.record entries)).store.Attended ruleSet fired :=
  h.mapWorld fun _ hkept => hkept.frame rfl rfl rfl hkept.marked (hkept.scheduled.record entries)

theorem fire_eq {session : Session} {a : Activation} {firing : Firing}
    (h : session.firingOf a = .ok firing) :
    session.fire a = (({ session with
        store := (performDeferred firing (.ofRule a.rule)).1.store
        serial := (performDeferred firing (.ofRule a.rule)).1.serial } : Session).record
          (noteOf session.cycle a (performDeferred firing (.ofRule a.rule)).2),
      entryOf (performDeferred firing (.ofRule a.rule)).1 session.cycle a
        (performDeferred firing (.ofRule a.rule)).2) := by
  unfold fire
  rw [h]

/-- The entry is about the activation, and tells of a fault unless the action ran to its end. -/
structure Reports (a : Activation) (entry : TraceEntry) : Prop where
  rule : entry.rule = a.rule.name
  token : entry.token = a.token
  status : entry.status = .fired ↔ entry.error = none

theorem reports_of_entryOf {firing : Firing} {cycle : Int} {a : Activation} {fault : Option Fault}
    {entry : TraceEntry} (h : entryOf firing cycle a fault = .ok entry) : Reports a entry := by
  obtain ⟨explanation, -, rfl⟩ := map_eq_ok.mp h
  refine ⟨rfl, rfl, ?_⟩
  cases fault with
  | none => simp [FiringStatus.ofFault?]
  | some fault => cases fault <;> simp [FiringStatus.ofFault?]

/-- A firing changes nothing of the session but its store, and the entry is about the activation. -/
structure Fired (ruleSet : RuleSet) (fired : List RefractionKey) (session : Session) (a : Activation)
    (last : Session) (result : Except Fault TraceEntry) : Prop where
  attended : last.store.Attended ruleSet fired
  frame : last = { session with store := last.store, serial := last.serial }
  entry : ∀ entry, result = .ok entry → Reports a entry

theorem Fired.trace {session last : Session} {a : Activation} {result : Except Fault TraceEntry}
    (h : Fired ruleSet fired session a last result) : last.trace = session.trace := by
  rw [h.frame]

theorem fired_fire {session : Session} (h : session.store.Attended ruleSet fired) (a : Activation) :
    Fired ruleSet fired session a (session.fire a).1 (session.fire a).2 := by
  cases hfiring : session.firingOf a with
  | error fault =>
    have hfire : session.fire a = (session, .error fault) := by
      rw [Session.fire, hfiring]
    refine ⟨by rw [hfire]; exact h, by rw [hfire], ?_⟩
    intro entry hentry
    rw [hfire] at hentry
    cases hentry
  | ok firing =>
    have hstore := store_of_firingOf hfiring
    have hperform := attended_performDeferred (hstore ▸ h) a.rule
    refine ⟨?_, ?_, ?_⟩
    . rw [fire_eq hfiring]
      exact attended_record hperform _
    . rw [fire_eq hfiring]
      rfl
    . intro entry hentry
      rw [fire_eq hfiring] at hentry
      exact reports_of_entryOf hentry

end Fire

/-! ### Selection -/

section Select

variable {ruleSet : RuleSet} {fired : List RefractionKey} {session next : Session}
  (h : session.store.Attended ruleSet fired)

theorem select_eq_none (hselect : session.select = (next, none)) :
    ∃ agenda, session.network.agenda.select = (agenda, none)
      ∧ next = session.mapNetwork ({ · with agenda }) := by
  unfold select at hselect
  cases hagenda : session.network.agenda.select with
  | mk agenda found =>
    rw [hagenda] at hselect
    cases found with
    | none => exact ⟨agenda, rfl, (Prod.mk.inj hselect).1.symm⟩
    | some a => cases (Prod.mk.inj hselect).2

theorem select_eq_some {a : Activation} (hselect : session.select = (next, some a)) :
    ∃ agenda, session.network.agenda.select = (agenda, some a)
      ∧ next = session.mapNetwork fun net => ({ net with agenda } : Network).markFired a := by
  unfold select at hselect
  cases hagenda : session.network.agenda.select with
  | mk agenda found =>
    rw [hagenda] at hselect
    cases found with
    | none => cases (Prod.mk.inj hselect).2
    | some b =>
      obtain ⟨hnext, hsame⟩ := Prod.mk.inj hselect
      obtain rfl : b = a := Option.some.inj hsame
      exact ⟨agenda, rfl, hnext.symm⟩

include h

theorem attended_idle (hselect : session.select = (next, none)) :
    next.store.Attended ruleSet fired := by
  obtain ⟨agenda, hagenda, rfl⟩ := select_eq_none hselect
  exact h.mapWorld fun _ hkept =>
    hkept.frame rfl rfl rfl hkept.marked (Network.scheduled_idle hkept.scheduled hagenda)

theorem attended_select {a : Activation} (hselect : session.select = (next, some a)) :
    session.network.Selected a next.network ∧ a.refraction ∉ fired
      ∧ next.store.Attended ruleSet (a.refraction :: fired) := by
  obtain ⟨agenda, hagenda, rfl⟩ := select_eq_some hselect
  obtain ⟨seen, -, -, hkept⟩ := h.kept
  obtain ⟨hselected, -⟩ := Network.selected_of_select hkept.scheduled hagenda
  refine ⟨hselected, ?_, ?_⟩
  . rw [← hkept.marked]
    exact hselected.new
  . apply h.mapWorld
    intro seen' hkept'
    obtain ⟨-, hscheduled⟩ := Network.selected_of_select hkept'.scheduled hagenda
    refine hkept'.frame hselected.ruleSet hselected.working hselected.memories ?_ hscheduled
    rw [← hkept'.marked]
    exact hselected.fired

end Select

theorem size_of_select {session next : Session} {todo : String → Token → Prop}
    (h : session.network.Scheduled todo) (hselect : session.select = (next, none)) :
    session.network.agenda.size = 0 := by
  obtain ⟨agenda, hagenda, -⟩ := select_eq_none hselect
  have hselects := h.orderly.select
  rw [hagenda] at hselects
  cases hselects with
  | idle _ hnone => exact Agenda.size_eq_zero_iff.mpr hnone

theorem frame_select {session next : Session} {a : Activation}
    (hselect : session.select = (next, some a)) : next = { session with store := next.store } := by
  obtain ⟨_, -, rfl⟩ := select_eq_some hselect
  rfl

/-! ### Histories -/

/-- What holds in every state of a session. -/
structure Consistent (ruleSet : RuleSet) (fired : List Activation) (session : Session) : Prop where
  attended : session.store.Attended ruleSet (fired.map Activation.refraction)
  rules : ∀ a ∈ fired, a.rule ∈ ruleSet.rules
  once : (fired.map Activation.refraction).Nodup
  /-- The trace is about what was selected, in that order; only a firing that fails leaves no entry. -/
  trace : (session.trace.map fun entry => (entry.rule, entry.token)).Sublist
    (fired.reverse.map Activation.key)

section Consistent

variable {ruleSet : RuleSet} {fired : List Activation} {session next : Session}

theorem Consistent.kept (h : session.Consistent ruleSet fired) : ∃ seen,
    session.network.Kept ruleSet (fired.map Activation.refraction) seen := by
  obtain ⟨seen, -, -, hkept⟩ := h.attended.kept
  exact ⟨seen, hkept⟩

theorem Consistent.select (h : session.Consistent ruleSet fired) {a : Activation}
    (hselect : session.select = (next, some a)) : next.Consistent ruleSet (a :: fired) := by
  obtain ⟨hselected, hnew, hattended⟩ := attended_select h.attended hselect
  obtain ⟨_, -, rfl⟩ := select_eq_some hselect
  obtain ⟨seen, hkept⟩ := h.kept
  refine ⟨hattended, ?_, ?_, ?_⟩
  . rw [List.forall_mem_cons]
    refine ⟨?_, h.rules⟩
    obtain ⟨tokens, facts, hmatched, -⟩ := hselected.due
    obtain ⟨memory, hmemory, hrule, -⟩ := Network.exists_of_matched hmatched
    rw [← hkept.same, ← hkept.sound.rules, ← hrule]
    exact List.mem_map.mpr ⟨memory, List.mem_of_find?_eq_some hmemory, rfl⟩
  . rw [List.map_cons, List.nodup_cons]
    exact ⟨hnew, h.once⟩
  . rw [List.reverse_cons, List.map_append]
    exact h.trace.trans (List.sublist_append_left _ _)

theorem Consistent.fire (h : session.Consistent ruleSet fired) {a : Activation}
    (hselect : session.select = (next, some a)) :
    Fired ruleSet ((a :: fired).map Activation.refraction) next.beginCycle a
      (next.beginCycle.fire a).1 (next.beginCycle.fire a).2 :=
  have hbegun : next.beginCycle.store.Attended ruleSet ((a :: fired).map Activation.refraction) :=
    (h.select hselect).attended.apply .beginCycle
  fired_fire hbegun a

theorem kept_created (hwellFormed : ruleSet.WellFormed) {options : SessionOptions}
    {journal : List LogEntry} (h : ofRuleSet options journal ruleSet = .ok session) :
    session.network.Kept ruleSet [] [] := by
  obtain ⟨-, hstore⟩ := ofRuleSet_eq_ok h
  have hkept := Network.kept_ofRuleSet hwellFormed
  rw [network, hstore]
  refine hkept.frame rfl rfl rfl hkept.marked ?_
  exact hkept.scheduled.frame rfl rfl rfl (fun _ => rfl) fun _ _ _ _ _ _ => rfl

theorem consistent_created (hwellFormed : ruleSet.WellFormed) {options : SessionOptions}
    {journal : List LogEntry} (h : ofRuleSet options journal ruleSet = .ok session) :
    session.Consistent ruleSet [] := by
  have hkept := kept_created hwellFormed h
  obtain ⟨-, hstore⟩ := ofRuleSet_eq_ok h
  obtain ⟨htrace, -⟩ := ofRuleSet_fresh h
  rw [network, hstore] at hkept
  refine ⟨?_, by simp, .nil, ?_⟩
  . rw [hstore]
    exact ⟨⟨[], rfl, by simp⟩, ⟨.nil, by simp⟩, ⟨[], trivial, .nil, hkept⟩, fun _ => rfl⟩
  . rw [htrace]
    exact .slnil

theorem History.consistent (hwellFormed : ruleSet.WellFormed) (h : History ruleSet fired session) :
    session.Consistent ruleSet fired := by
  induction h with
  | created hcreated => exact consistent_created hwellFormed hcreated
  | mutated _ mutation ih => exact ⟨ih.attended.apply mutation, ih.rules, ih.once, ih.trace⟩
  | subscribed _ hwatches ih => exact ⟨ih.attended.subscribe hwatches, ih.rules, ih.once, ih.trace⟩
  | idle _ hselect ih =>
    have hattended := attended_idle ih.attended hselect
    obtain ⟨agenda, -, rfl⟩ := select_eq_none hselect
    exact ⟨hattended, ih.rules, ih.once, ih.trace⟩
  | selected _ hselect ih => exact ih.select hselect
  | @fired fired session next last _ a hselect entry hfire ih =>
    have hnext := ih.select hselect
    have hfired := ih.fire hselect
    rw [hfire] at hfired
    obtain ⟨hrule, htoken, -⟩ := hfired.entry entry rfl
    refine ⟨hfired.attended, hnext.rules, hnext.once, ?_⟩
    have htrace : last.trace = next.trace := hfired.trace
    rw [htrace, frame_select hselect, List.map_append, List.reverse_cons, List.map_append]
    apply ih.trace.append
    rw [List.map_singleton, List.map_singleton, hrule, htoken]
    exact .refl _
  | @escaped fired session next last _ a hselect fault hfire ih =>
    have hnext := ih.select hselect
    have hfired := ih.fire hselect
    rw [hfire] at hfired
    refine ⟨hfired.attended, hnext.rules, hnext.once, ?_⟩
    rw [hfired.trace]
    exact hnext.trace
  | logged _ entries ih => exact ⟨attended_record ih.attended entries, ih.rules, ih.once, ih.trace⟩
  | noted _ state cycle serial result ih => exact ⟨ih.attended, ih.rules, ih.once, ih.trace⟩

theorem History.rule_of_select (hwellFormed : ruleSet.WellFormed) (h : History ruleSet fired session)
    {next : Session} {a : Activation} (hselect : session.select = (next, some a)) :
    a.rule ∈ ruleSet.rules :=
  ((h.consistent hwellFormed).select hselect).rules a List.mem_cons_self

end Consistent

/-! ### Creation and runs -/

section Run

variable {ruleSet : RuleSet} {fired : List Activation} {session : Session}

theorem History.applyAll (h : History ruleSet fired session) (mutations : List Mutation) :
    History ruleSet fired { session with store := session.store.applyAll mutations } := by
  induction mutations generalizing session with
  | nil => exact h
  | cons mutation mutations ih => exact ih (h.mutated mutation)

theorem load_eq_ok {facts : List InitialFact} {last : Session} (h : session.load facts = .ok last) :
    ∃ mutations : List Mutation, (∀ mutation ∈ mutations, ∃ tag data, mutation = .insert tag data)
      ∧ last = { session with store := session.store.applyAll mutations } := by
  induction facts generalizing session with
  | nil => exact ⟨[], by simp, (Except.ok.inj h).symm⟩
  | cons item facts ih =>
    unfold Session.load at h
    simp only [doBind_eq_ok] at h
    obtain ⟨fact, -, h⟩ := h
    split at h
    . next next id heq =>
      obtain ⟨mutations, hinserts, hlast⟩ := ih h
      refine ⟨.insert (.text fact.type) (.record fact.data) :: mutations, ?_, ?_⟩
      . rw [List.forall_mem_cons]
        exact ⟨⟨_, _, rfl⟩, hinserts⟩
      . have hnext : next = { session with
            store := (session.store.apply (.insert (.text fact.type) (.record fact.data))).1 } := by
          rw [Store.apply, Store.fst_settle]
          exact (congrArg Prod.fst heq).symm
        rw [hlast, hnext]
        rfl
    . cases h

theorem load_checked {input : FactInput} {facts : List InitialFact} {last : Session}
    (hok : (session.store.apply (.insert (.text input.type) (.record input.data))).2 = none)
    (hrest : ({ session with
      store := (session.store.apply (.insert (.text input.type) (.record input.data))).1 } : Session).load
        facts = .ok last) : session.load (.checked input :: facts) = .ok last := by
  cases hinsert : session.store.insert (.text input.type) (.record input.data) with
  | mk store outcome =>
    have hsession : session.insert (.text input.type) (.record input.data)
        = ({ session with store }, outcome) := by
      unfold Session.insert Session.change
      simp only [hinsert]
    rw [Store.apply, hinsert] at hok hrest
    cases outcome with
    | ok id =>
      simp only [Session.load, doBind_eq_ok]
      exact ⟨input, rfl, by rw [hsession]; exact hrest⟩
    | error fault => cases hok

theorem createFrom_eq_ok {options : SessionOptions} {journal : List LogEntry}
    {facts : List InitialFact} (h : createFrom options journal ruleSet facts = .ok session) :
    ∃ empty mutations entries, ofRuleSet options journal ruleSet = .ok empty
      ∧ (∀ mutation ∈ mutations, ∃ tag data, mutation = .insert tag data)
      ∧ session = ({ empty with store := empty.store.applyAll mutations } : Session).mapNetwork
        (·.record entries) := by
  unfold createFrom at h
  simp only [doBind_eq_ok] at h
  obtain ⟨empty, hempty, loaded, hloaded, heq⟩ := h
  obtain ⟨mutations, hinserts, rfl⟩ := load_eq_ok hloaded
  exact ⟨empty, mutations, _, hempty, hinserts, (Except.ok.inj heq).symm⟩

theorem history_createFrom {options : SessionOptions} {journal : List LogEntry}
    {facts : List InitialFact} (h : createFrom options journal ruleSet facts = .ok session) :
    History ruleSet [] session := by
  obtain ⟨empty, mutations, entries, hempty, -, rfl⟩ := createFrom_eq_ok h
  exact ((History.created hempty).applyAll mutations).logged entries

theorem History.loop (h : History ruleSet fired session) (left : Nat) :
    ∃ more, History ruleSet (more ++ fired) (session.loop left).1 := by
  induction left generalizing fired session with
  | zero =>
    unfold Session.loop
    split
    . exact ⟨[], h.noted _ _ _ _⟩
    . exact ⟨[], h⟩
  | succ left ih =>
    unfold Session.loop
    split
    . exact ⟨[], h.noted _ _ _ _⟩
    . dsimp only
      split
      . exact ⟨[], h⟩
      . exact ⟨[], h⟩
      . split
        . next next hselect => exact ⟨[], (h.idle hselect).noted _ _ _ _⟩
        . next next a hselect =>
          split
          . next last fault hfire => exact ⟨[a], h.escaped hselect hfire⟩
          . next last entry hfire =>
            obtain ⟨more, hmore⟩ := ih (h.fired hselect hfire)
            exact ⟨more ++ [a], by rw [List.append_assoc]; exact hmore⟩

theorem History.finish (h : History ruleSet fired session) (haltedBy : Option Halt) :
    History ruleSet fired (session.finish haltedBy).1 := by
  unfold Session.finish
  cases haltedBy with
  | none => exact (h.noted _ _ _ _).logged _
  | some halt => exact (((h.noted _ _ _ _).logged _).noted _ _ _ _).logged _

theorem History.run (h : History ruleSet fired session) :
    ∃ more, History ruleSet (more ++ fired) session.run.1 := by
  unfold Session.run
  split
  . exact ⟨[], h⟩
  . obtain ⟨more, hmore⟩ := h.loop session.allowance
    refine ⟨more, ?_⟩
    split
    . next heq =>
      rw [heq] at hmore
      exact hmore
    . next heq =>
      rw [heq] at hmore
      exact hmore.finish _

end Run

end Session
end ForwardChaining
