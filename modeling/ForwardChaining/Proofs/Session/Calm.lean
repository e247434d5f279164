import ForwardChaining.Proofs.Network.Equivalence
import ForwardChaining.Proofs.Session.Conduct
import ForwardChaining.Proofs.Session.History

/-!
This module contains the sessions of facts on which no test fails: no field of them holds a set, and only
integers are aggregated. The network of such a session knows all facts, up to the changes that are still
queued, and follows every change without a fault.
-/

namespace ForwardChaining

/-- No test of the rules fails on the fact: no field holds a set, and what it contributes are integers. -/
structure Fact.Testable (rules : List Rule) (fact : Fact) : Prop where
  flat : fact.Flat
  integral : ∀ rule ∈ rules, ∀ condition ∈ rule.conditions, condition.Integral fact

theorem Fact.Regular.testable {rules : List Rule} {fact : Fact} (h : fact.Regular rules) :
    fact.Testable rules :=
  ⟨h.flat, h.integral⟩

/-- No test of the rules fails on a fact that the change brings. -/
def Change.Testable (rules : List Rule) (change : Change) : Prop :=
  ∀ fact ∈ change.brings, fact.Testable rules

namespace Network

/-- The network knows these facts, and none of its tests fails on them. -/
structure Abreast (net : Network) (facts : List Fact) : Prop where
  sound : net.Sound
  tame : ∀ name, net.Tame name
  known : net.working.facts.Perm facts

section Abreast

variable {net : Network} {facts : List Fact} (h : net.Abreast facts)

include h

theorem Abreast.onChange {change : Change} (hadmissible : change.Admissible facts)
    (htakes : ∀ fact ∈ change.takes, fact ∈ facts) (htestable : change.Testable net.ruleSet.rules) :
    (net.onChange change).2 = none ∧ (net.onChange change).1.Abreast (change.applied facts)
      ∧ (net.onChange change).1.ruleSet = net.ruleSet := by
  have hadmissible' := Change.admissible_perm h.known.symm hadmissible
  have hthere : ∀ fact ∈ change.takes, ∃ other ∈ net.working.facts, other.id = fact.id :=
    fun fact hfact => ⟨fact, h.known.mem_iff.mpr (htakes fact hfact), rfl⟩
  have hflat : ∀ fact ∈ change.brings, fact.Flat := fun fact hfact => (htestable fact hfact).flat
  have hintegral : ∀ fact ∈ change.brings, ∀ rule ∈ net.ruleSet.rules,
      ∀ condition ∈ rule.conditions, condition.Integral fact :=
    fun fact hfact => (htestable fact hfact).integral
  obtain ⟨hok, -⟩ := tame_onChange h.sound h.tame hadmissible' hthere hflat hintegral
  obtain ⟨hsound, hsame⟩ := sound_onChange h.sound hadmissible'
  refine ⟨hok, ⟨hsound, tame_applied h.sound h.tame hadmissible' hok hflat hintegral, ?_⟩, hsame.ruleSet⟩
  rw [facts_onChange h.sound hadmissible' hok]
  exact Change.applied_perm h.known change

theorem Abreast.follow {changes : List Change} (hlegal : Change.Legal facts changes)
    (htestable : ∀ change ∈ changes, change.Testable net.ruleSet.rules) :
    (listener.follow net changes).Abreast (Change.replay facts changes)
      ∧ (listener.follow net changes).ruleSet = net.ruleSet := by
  induction changes generalizing net facts with
  | nil => exact ⟨h, rfl⟩
  | cons change changes ih =>
    obtain ⟨hadmissible, htakes, hlegal⟩ := hlegal
    rw [List.forall_mem_cons] at htestable
    obtain ⟨-, hnext, hruleSet⟩ := h.onChange hadmissible htakes htestable.1
    rw [← hruleSet] at htestable
    obtain ⟨hlast, hsame⟩ := ih hnext hlegal htestable.2
    exact ⟨hlast, hsame.trans hruleSet⟩

theorem Abreast.frame {net' : Network} (hruleSet : net'.ruleSet = net.ruleSet)
    (hworking : net'.working = net.working) (hmemories : net'.memories = net.memories) :
    net'.Abreast facts := by
  have hsound := h.sound.frame hruleSet hworking hmemories
  cases net
  cases net'
  simp only at hruleSet hworking hmemories
  subst hruleSet hworking hmemories
  exact ⟨hsound, fun name => ⟨(h.tame name).flat, (h.tame name).exact, (h.tame name).scope⟩, h.known⟩

end Abreast

theorem abreast_ofRuleSet {ruleSet : RuleSet} (h : ruleSet.WellFormed) :
    (ofRuleSet ruleSet).1.Abreast [] := by
  obtain ⟨-, hfaithful, -, hfacts⟩ := faithful_start h
  exact ⟨hfaithful.sound, hfaithful.tame, by rw [hfacts]⟩

end Network

namespace Store

/-- The network knows all facts as they were before the changes that are still queued. -/
def Abreast (store : Store Network) : Prop :=
  ∃ seen, Change.Legal seen store.pending
    ∧ (Change.replay seen store.pending).Perm store.table.live ∧ store.world.Abreast seen

section Abreast

variable {ruleSet : RuleSet} {fired : List RefractionKey} {store : Store Network}
  (hattended : store.Attended ruleSet fired)

include hattended

theorem Attended.same_rules : store.world.ruleSet = ruleSet := by
  obtain ⟨_, -, -, hkept⟩ := hattended.kept
  exact hkept.same

theorem Abreast.after (h : store.Abreast) {table' : FactTable} {change? : Option Change}
    (hfollows : store.table.Follows table' change?)
    (htestable : store.depth = 0 → ∀ change ∈ change?, change.Testable ruleSet.rules) :
    (store.after table' change?).Abreast := by
  obtain ⟨seen, hlegal, hlive, habreast⟩ := h
  obtain ⟨others, hlisteners, hwatch⟩ := hattended.listeners
  cases change? with
  | none => exact ⟨seen, hlegal, by rw [Store.after, hfollows.1]; exact hlive, habreast⟩
  | some change =>
    obtain ⟨hadmissible, htakes, hleaves⟩ := hfollows.change hattended.table
    have hadmissible' := Change.admissible_perm hlive.symm hadmissible
    have htakes' : ∀ fact ∈ change.takes, fact ∈ Change.replay seen store.pending :=
      fun fact hfact => hlive.mem_iff.mpr (htakes fact hfact)
    have hlive' := (Change.applied_perm hlive change).trans hleaves
    simp only [Store.after, emit]
    split
    . next hdepth =>
      rw [hattended.idle hdepth] at hlive' hadmissible' htakes'
      obtain ⟨-, hnext, -⟩ := habreast.onChange hadmissible' htakes'
        (hattended.same_rules ▸ htestable hdepth change rfl)
      rw [hlisteners]
      dsimp only
      rw [deliver_followed hwatch]
      refine ⟨change.applied seen, ?_, ?_, hnext⟩ <;> dsimp only <;> rw [hattended.idle hdepth]
      . trivial
      . exact hlive'
    . refine ⟨seen, ?_, ?_, habreast⟩
      . rw [Change.legal_append]
        exact ⟨hlegal, hadmissible', htakes', trivial⟩
      . rw [Change.replay_append]
        exact hlive'

theorem Abreast.leave (h : store.Abreast)
    (htestable : ∀ change ∈ store.pending, change.Testable ruleSet.rules) : store.leave.1.Abreast := by
  obtain ⟨seen, hlegal, hlive, habreast⟩ := h
  obtain ⟨others, hlisteners, hwatch⟩ := hattended.listeners
  unfold Store.leave
  split
  . dsimp only
    rw [hlisteners, flush_followed hwatch]
    rw [← hattended.same_rules] at htestable
    exact ⟨_, trivial, hlive, (habreast.follow hlegal htestable).1⟩
  . exact ⟨seen, hlegal, hlive, habreast⟩

end Abreast

/-- From a store to a later one of the same deferred block nothing is delivered, and the queue only grows. -/
structure Queues (store store' : Store σ) : Prop where
  depth : store'.depth = store.depth
  listeners : store'.listeners = store.listeners
  world : store'.world = store.world
  pending : store.pending <+: store'.pending

theorem Queues.trans {store store' store'' : Store σ} (h : store.Queues store') (h' : store'.Queues store'') :
    store.Queues store'' :=
  ⟨h'.depth.trans h.depth, h'.listeners.trans h.listeners, h'.world.trans h.world,
    h.pending.trans h'.pending⟩

theorem queues_after {store : Store σ} (hdepth : store.depth ≠ 0) (table' : FactTable)
    (change? : Option Change) : store.Queues (store.after table' change?) := by
  cases change? with
  | none => exact ⟨rfl, rfl, rfl, List.prefix_rfl⟩
  | some change =>
    simp only [Store.after, emit, if_neg hdepth]
    exact ⟨rfl, rfl, rfl, List.prefix_append _ _⟩

theorem queues_perform {firing : Firing σ} (hdepth : firing.store.depth ≠ 0) (rule : Rule) :
    firing.store.Queues (firing.perform (Action.ofRule rule)).1.store := by
  refine Firing.preserved_perform (P := firing.store.Queues) ?_ rule ⟨rfl, rfl, rfl, List.prefix_rfl⟩
  intro store table' change? _ hqueues
  exact hqueues.trans (queues_after (hqueues.depth ▸ hdepth) table' change?)

theorem abreast_perform {ruleSet : RuleSet} {fired : List RefractionKey} {firing : Firing}
    (hattended : firing.store.Attended ruleSet fired) (h : firing.store.Abreast)
    (hdepth : firing.store.depth ≠ 0) (rule : Rule) :
    (firing.perform (Action.ofRule rule)).1.store.Attended ruleSet fired
      ∧ (firing.perform (Action.ofRule rule)).1.store.Abreast := by
  have hpreserved := Firing.preserved_perform (σ := Network)
    (P := fun store => store.depth ≠ 0 ∧ store.Attended ruleSet fired ∧ store.Abreast) ?_ rule
    ⟨hdepth, hattended, h⟩
  . exact hpreserved.2
  . rintro store table' change? hfollows ⟨hdeferred, hattended, habreast⟩
    exact ⟨(queues_after hdeferred table' change?).depth ▸ hdeferred, hattended.after hfollows,
      habreast.after hattended hfollows fun hzero => absurd hzero hdeferred⟩

/-- The network knows all facts but for the changes in the queue, and will follow these without a fault. -/
structure Calm (ruleSet : RuleSet) (store : Store Network) : Prop where
  abreast : store.Abreast
  queued : ∀ change ∈ store.pending, change.Testable ruleSet.rules

section Calm

variable {ruleSet : RuleSet} {fired : List RefractionKey} {store : Store Network}

theorem Calm.mapWorld (h : store.Calm ruleSet) {net : Network}
    (hnet : ∀ seen, store.world.Abreast seen → net.Abreast seen) :
    ({ store with world := net } : Store Network).Calm ruleSet := by
  obtain ⟨seen, hlegal, hlive, habreast⟩ := h.abreast
  exact ⟨⟨seen, hlegal, hlive, hnet seen habreast⟩, h.queued⟩

theorem Calm.leave (hattended : store.Attended ruleSet fired) (h : store.Calm ruleSet) :
    store.leave.1.Calm ruleSet := by
  refine ⟨h.abreast.leave hattended h.queued, ?_⟩
  unfold Store.leave
  split
  . exact List.forall_mem_nil _
  . exact h.queued

theorem Calm.refused_of_leave (hattended : store.Attended ruleSet fired) (h : store.Calm ruleSet)
    {fault : Fault} (hfault : store.leave.2 = some fault) :
    ∃ other ∈ store.listeners.tail, ∃ change ∈ store.pending, ∃ net, (other change net).2 = some fault := by
  obtain ⟨⟨seen, hlegal, -, habreast⟩, htestable⟩ := h
  obtain ⟨others, hlisteners, hwatch⟩ := hattended.listeners
  rw [← hattended.same_rules] at htestable
  unfold Store.leave at hfault
  split at hfault
  . rw [hlisteners] at hfault ⊢
    rcases fault_of_flush hwatch hfault with ⟨before, change, more, hsplit, hown⟩ | hother
    . rw [hsplit, Change.legal_append] at hlegal
      rw [hsplit, List.forall_mem_append, List.forall_mem_cons] at htestable
      obtain ⟨hbefore, hruleSet⟩ := habreast.follow hlegal.1 htestable.1
      obtain ⟨hok, -⟩ := hbefore.onChange hlegal.2.1 hlegal.2.2.1 (hruleSet ▸ htestable.2.1)
      cases hown.symm.trans hok
    . exact hother
  . cases hfault

/-- With the outermost block, the network follows each queued change once, and then knows all facts. -/
theorem Calm.delivered_of_leave (hattended : store.Attended ruleSet fired) (h : store.Calm ruleSet)
    (hdepth : store.depth ≤ 1) : store.leave.1.pending = []
      ∧ store.leave.1.world = Network.listener.follow store.world store.pending
      ∧ store.leave.1.world.working.facts.Perm store.table.live := by
  obtain ⟨⟨seen, hlegal, hlive, habreast⟩, htestable⟩ := h
  obtain ⟨others, hlisteners, hwatch⟩ := hattended.listeners
  rw [← hattended.same_rules] at htestable
  unfold Store.leave
  rw [if_pos hdepth]
  dsimp only
  rw [hlisteners, flush_followed hwatch]
  exact ⟨rfl, rfl, (habreast.follow hlegal htestable).1.known.trans hlive⟩

theorem Calm.apply (hattended : store.Attended ruleSet fired) (h : store.Calm ruleSet) {mutation : Mutation}
    (htestable : ∀ change ∈ store.table.makes mutation, change.Testable ruleSet.rules) :
    (store.apply mutation).1.Calm ruleSet := by
  by_cases hedge : mutation.IsEdge
  . cases mutation with
    | enter => exact ⟨h.abreast, h.queued⟩
    | leave => exact h.leave hattended
    | insert | update | modify | retract | beginCycle => exact False.elim hedge
  . rw [fst_apply store hedge]
    refine ⟨h.abreast.after hattended (store.table.moves_mutate mutation).follows fun _ => htestable, ?_⟩
    cases hmakes : store.table.makes mutation with
    | none => exact h.queued
    | some change =>
      simp only [Store.after, emit]
      split
      . exact h.queued
      . rw [List.forall_mem_append, List.forall_mem_singleton]
        exact ⟨h.queued, htestable change hmakes⟩

end Calm
end Store

/-- The firing inside the deferred block of its action. -/
def Firing.opened (firing : Firing σ) : Firing σ :=
  { firing with store := firing.store.enter }

namespace Session

/-- The queue when the action of an activation has come to its end, and its block has not. -/
def queuedBy (session : Session) (a : Activation) : List Change :=
  match session.firingOf a with
  | .ok firing => (firing.opened.perform (.ofRule a.rule)).1.store.pending
  | .error _ => []

/-- The states of a session of which no change has brought a fact that a test of the rules fails on. -/
inductive Calm (ruleSet : RuleSet) : List Activation → Session → Prop
  | created {options : SessionOptions} {journal : List LogEntry} {session : Session}
      (hcreated : ofRuleSet options journal ruleSet = .ok session) : Calm ruleSet [] session
  | mutated {fired : List Activation} {session : Session} (h : Calm ruleSet fired session)
      (mutation : Mutation)
      (htestable : ∀ change ∈ session.store.table.makes mutation, change.Testable ruleSet.rules) :
      Calm ruleSet fired { session with store := (session.store.apply mutation).1 }
  | subscribed {fired : List Activation} {session : Session} (h : Calm ruleSet fired session)
      {listener : Listener Network} (hwatches : listener.Watches) :
      Calm ruleSet fired { session with store := session.store.subscribe listener }
  | idle {fired : List Activation} {session next : Session} (h : Calm ruleSet fired session)
      (hselect : session.select = (next, none)) : Calm ruleSet fired next
  | selected {fired : List Activation} {session next : Session} (h : Calm ruleSet fired session)
      {a : Activation} (hselect : session.select = (next, some a)) : Calm ruleSet (a :: fired) next
  | fired {fired : List Activation} {session next last : Session} (h : Calm ruleSet fired session)
      {a : Activation} (hselect : session.select = (next, some a))
      (htestable : ∀ change ∈ next.beginCycle.queuedBy a, change.Testable ruleSet.rules)
      {entry : TraceEntry} (hfire : next.beginCycle.fire a = (last, .ok entry)) :
      Calm ruleSet (a :: fired) { last with trace := last.trace ++ [entry] }
  | escaped {fired : List Activation} {session next last : Session} (h : Calm ruleSet fired session)
      {a : Activation} (hselect : session.select = (next, some a))
      (htestable : ∀ change ∈ next.beginCycle.queuedBy a, change.Testable ruleSet.rules)
      {fault : Fault} (hfire : next.beginCycle.fire a = (last, .error fault)) :
      Calm ruleSet (a :: fired) last
  | logged {fired : List Activation} {session : Session} (h : Calm ruleSet fired session)
      (entries : List LogEntry) : Calm ruleSet fired (session.mapNetwork (·.record entries))
  | noted {fired : List Activation} {session : Session} (h : Calm ruleSet fired session)
      (state : TerminalState) (cycle : Int) (serial : Nat) (result : Option RunResult) :
      Calm ruleSet fired { session with state, cycle, serial, result }

section Calm

variable {ruleSet : RuleSet} {fired : List Activation} {session next : Session}

theorem Calm.history (h : Calm ruleSet fired session) : History ruleSet fired session := by
  induction h with
  | created hcreated => exact .created hcreated
  | mutated _ mutation _ ih => exact ih.mutated mutation
  | subscribed _ hwatches ih => exact ih.subscribed hwatches
  | idle _ hselect ih => exact ih.idle hselect
  | selected _ hselect ih => exact ih.selected hselect
  | fired _ hselect _ hfire ih => exact ih.fired hselect hfire
  | escaped _ hselect _ hfire ih => exact ih.escaped hselect hfire
  | logged _ entries ih => exact ih.logged entries
  | noted _ state cycle serial result ih => exact ih.noted state cycle serial result

/-- When the action of an activation has come to its end, its changes wait for the network to follow them. -/
theorem calm_perform {fired : List RefractionKey} (hattended : session.store.Attended ruleSet fired)
    (hcalm : session.store.Calm ruleSet) {a : Activation}
    (htestable : ∀ change ∈ session.queuedBy a, change.Testable ruleSet.rules) {firing : Firing}
    (hfiring : session.firingOf a = .ok firing) :
    (firing.opened.perform (.ofRule a.rule)).1.store.Attended ruleSet fired
      ∧ (firing.opened.perform (.ofRule a.rule)).1.store.Calm ruleSet := by
  rw [queuedBy, hfiring] at htestable
  have hopened : firing.opened.store.Attended ruleSet fired ∧ firing.opened.store.Abreast := by
    rw [Firing.opened, store_of_firingOf hfiring]
    exact ⟨hattended.enter, hcalm.abreast⟩
  obtain ⟨hinside, habreast⟩ := Store.abreast_perform hopened.1 hopened.2 (Nat.succ_ne_zero _) a.rule
  exact ⟨hinside, habreast, htestable⟩

theorem calm_fire {fired : List RefractionKey} (hattended : session.store.Attended ruleSet fired)
    (hcalm : session.store.Calm ruleSet) {a : Activation}
    (htestable : ∀ change ∈ session.queuedBy a, change.Testable ruleSet.rules) :
    (session.fire a).1.store.Calm ruleSet := by
  cases hfiring : session.firingOf a with
  | error fault =>
    rw [Session.fire, hfiring]
    exact hcalm
  | ok firing =>
    obtain ⟨hinside, hqueued⟩ := calm_perform hattended hcalm htestable hfiring
    rw [fire_eq hfiring]
    exact (hqueued.leave hinside).mapWorld fun _ hnet => hnet.frame rfl rfl rfl

theorem calm_of_select (hwellFormed : ruleSet.WellFormed) (h : History ruleSet fired session)
    (hcalm : session.store.Calm ruleSet) {a : Activation} (hselect : session.select = (next, some a)) :
    next.store.Calm ruleSet
      ∧ ((∀ change ∈ next.beginCycle.queuedBy a, change.Testable ruleSet.rules) →
        (next.beginCycle.fire a).1.store.Calm ruleSet) := by
  have hconsistent := h.consistent hwellFormed
  obtain ⟨hselected, -, -⟩ := attended_select hconsistent.attended hselect
  have hnext : next.store.Calm ruleSet := by
    obtain ⟨agenda, -, rfl⟩ := select_eq_some hselect
    exact hcalm.mapWorld fun _ habreast =>
      habreast.frame hselected.ruleSet hselected.working hselected.memories
  have hbegun : next.beginCycle.store.Calm ruleSet := ⟨hnext.abreast, hnext.queued⟩
  exact ⟨hnext, calm_fire ((hconsistent.select hselect).attended.apply .beginCycle) hbegun⟩

/-- The network of such a session follows every change, as long as no fact comes that a test fails on. -/
theorem Calm.store (hwellFormed : ruleSet.WellFormed) (h : Calm ruleSet fired session) :
    session.store.Calm ruleSet := by
  induction h with
  | @created options journal session hcreated =>
    have habreast := Network.abreast_ofRuleSet hwellFormed
    obtain ⟨-, hstore⟩ := ofRuleSet_eq_ok hcreated
    rw [hstore]
    exact ⟨⟨[], trivial, .nil, habreast.frame rfl rfl rfl⟩, List.forall_mem_nil _⟩
  | mutated h mutation htestable ih =>
    exact ih.apply (h.history.consistent hwellFormed).attended htestable
  | subscribed _ _ ih => exact ⟨ih.abreast, ih.queued⟩
  | idle _ hselect ih =>
    obtain ⟨agenda, -, rfl⟩ := select_eq_none hselect
    exact ih.mapWorld fun _ habreast => habreast.frame rfl rfl rfl
  | selected h hselect ih => exact (calm_of_select hwellFormed h.history ih hselect).1
  | fired h hselect htestable hfire ih =>
    have hfired := (calm_of_select hwellFormed h.history ih hselect).2 htestable
    rw [hfire] at hfired
    exact hfired
  | escaped h hselect htestable hfire ih =>
    have hfired := (calm_of_select hwellFormed h.history ih hselect).2 htestable
    rw [hfire] at hfired
    exact hfired
  | logged _ _ ih => exact ih.mapWorld fun _ habreast => habreast.frame rfl rfl rfl
  | noted _ _ _ _ _ ih => exact ih

end Calm

end Session
end ForwardChaining
