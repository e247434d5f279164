import ForwardChaining.Proofs.Session.History
import Mathlib

/-!
This module contains that a session fires each match once, and that the agenda holds what is left to fire.
-/

namespace ForwardChaining

namespace Network

theorem mem_completeMatches {net : Network} (h : net.Sound) {name : String} {token : Token} :
    (name, token) ∈ net.completeMatches
      ↔ ∃ rule tokens, net.matched name = some (rule, tokens) ∧ token ∈ tokens := by
  rw [completeMatches, List.mem_flatMap]
  constructor
  . rintro ⟨memory, hmemory, hmem⟩
    obtain ⟨other, hother, heq⟩ := List.mem_map.mp hmem
    obtain ⟨rfl, rfl⟩ := Prod.mk.inj heq
    exact ⟨_, _, matched_eq (memory?_of_mem h hmemory), hother⟩
  . rintro ⟨rule, tokens, hmatched, htoken⟩
    obtain ⟨memory, hmemory, rfl, rfl⟩ := exists_of_matched hmatched
    refine ⟨memory, List.mem_of_find?_eq_some hmemory, List.mem_map.mpr ⟨token, htoken, ?_⟩⟩
    rw [name_of_memory? hmemory]

theorem Sound.exists_matched {net : Network} (h : net.Sound) {rule : Rule}
    (hrule : rule ∈ net.ruleSet.rules) : ∃ tokens, net.matched rule.name = some (rule, tokens) := by
  rw [← h.rules] at hrule
  obtain ⟨memory, hmemory, rfl⟩ := List.mem_map.mp hrule
  exact ⟨_, matched_eq (memory?_of_mem h hmemory)⟩

theorem Sound.rule_of_matched {net : Network} (h : net.Sound) {name : String} {rule : Rule}
    {tokens : List Token} (hmatched : net.matched name = some (rule, tokens)) :
    rule ∈ net.ruleSet.rules := by
  obtain ⟨memory, hmemory, rfl, -⟩ := exists_of_matched hmatched
  rw [← h.rules]
  exact List.mem_map.mpr ⟨memory, List.mem_of_find?_eq_some hmemory, rfl⟩

end Network

namespace Session

section Agenda

variable {spec : RuleSetSpec} {ruleSet : RuleSet} (hcompile : spec.compile = .ok ruleSet)
  {fired : List Activation} {session : Session} (h : History ruleSet fired session)

include hcompile h

/--
In every state, the keys in the agenda are what the network counts as pending: the complete matches that
it maintains and whose refraction key is none of those that were selected.
-/
theorem agenda_eq_pending : ∃ found, session.network.pending = .ok found
    ∧ (∀ name token, session.network.agenda.contains (name, token) = true ↔ (name, token) ∈ found)
    ∧ ∀ name token, (name, token) ∈ found ↔ (name, token) ∈ session.network.completeMatches
      ∧ ∃ rule ∈ ruleSet.rules, rule.name = name ∧ ∃ facts,
        session.network.boundFacts token = .ok facts
          ∧ Network.refractionKey rule token (facts.map (·.version))
            ∉ fired.map Activation.refraction := by
  obtain ⟨seen, hkept⟩ := (h.consistent (wellFormed_of_compile hcompile)).kept
  obtain ⟨found, hfound, hiff⟩ := Network.pending_ok hkept.sound
  refine ⟨found, hfound, ?_, ?_⟩
  . intro name token
    rw [hiff, ← hkept.scheduled.find?_iff, Agenda.contains, Option.isSome_iff_exists]
  . intro name token
    rw [hiff, Network.mem_completeMatches hkept.sound, ← hkept.marked, ← hkept.same]
    constructor
    . rintro ⟨rule, tokens, facts, hmatched, htoken, hfacts, hnew⟩
      exact ⟨⟨rule, tokens, hmatched, htoken⟩, rule, hkept.sound.rule_of_matched hmatched,
        Network.name_of_matched hmatched, facts, hfacts, hnew⟩
    . rintro ⟨⟨rule, tokens, hmatched, htoken⟩, rule', hrule', rfl, facts, hfacts, hnew⟩
      obtain ⟨tokens', hmatched'⟩ := hkept.sound.exists_matched hrule'
      obtain ⟨rfl, rfl⟩ := Prod.mk.inj (Option.some.inj (hmatched.symm.trans hmatched'))
      exact ⟨rule, tokens, facts, hmatched, htoken, hfacts, hnew⟩

end Agenda

/-! ### Firing once -/

/--
Without firing again on changes, no two entries of the trace bind the same identities; with it, no two
selected activations bind the same identities at the same versions.
-/
structure FiresOnce (rule : Rule) (fired : List Activation) (trace : List TraceEntry) : Prop where
  identities : rule.refireOnChange = false →
    ((trace.filter (·.rule = rule.name)).map (·.token)).Nodup
  versions : rule.refireOnChange = true →
    ((fired.filter (·.rule.name = rule.name)).map fun a => (a.token, a.versions)).Nodup

theorem nodup_of_refraction {as : List Activation} (h : (as.map Activation.refraction).Nodup)
    {f : Activation → α}
    (hf : ∀ a ∈ as, ∀ b ∈ as, f a = f b → a.refraction = b.refraction) : (as.map f).Nodup := by
  apply List.Nodup.map_on _ (List.Nodup.of_map _ h)
  intro a ha b hb heq
  exact List.inj_on_of_nodup_map h ha hb (hf a ha b hb heq)

theorem Consistent.firesOnce {ruleSet : RuleSet} (hnames : (ruleSet.rules.map (·.name)).Nodup)
    {fired : List Activation} {session : Session} (h : session.Consistent ruleSet fired) {rule : Rule}
    (hrule : rule ∈ ruleSet.rules) : FiresOnce rule fired session.trace := by
  have hthis : ∀ a ∈ fired.filter (·.rule.name = rule.name), a.rule = rule := by
    intro a ha
    rw [List.mem_filter, decide_eq_true_eq] at ha
    exact List.inj_on_of_nodup_map hnames (h.rules a ha.1) hrule ha.2
  have honce : ((fired.filter (·.rule.name = rule.name)).map Activation.refraction).Nodup :=
    List.Nodup.sublist (List.filter_sublist.map _) h.once
  constructor
  . intro hstays
    have htokens : ((fired.filter (·.rule.name = rule.name)).map (·.token)).Nodup := by
      apply nodup_of_refraction honce
      intro a ha b hb heq
      rw [Activation.refraction, Activation.refraction, hthis a ha, hthis b hb]
      simp only [Network.refractionKey, hstays, heq, Bool.false_eq_true, if_false]
    have hsublist := (h.trace.filter (·.1 = rule.name)).map (·.2)
    rw [List.filter_map, List.filter_map, List.map_map, List.map_map, List.filter_reverse,
      List.map_reverse] at hsublist
    exact List.Nodup.sublist hsublist (List.nodup_reverse.mpr htokens)
  . intro hfires
    apply nodup_of_refraction honce
    intro a ha b hb heq
    obtain ⟨htoken, hversions⟩ := Prod.mk.inj heq
    rw [Activation.refraction, Activation.refraction, hthis a ha, hthis b hb, htoken, hversions]

theorem trace_of_run {session : Session} {result : RunResult} (h : session.run.2 = .ok result) :
    result.trace = session.run.1.trace := by
  unfold run at h ⊢
  split at h
  . cases h
  . next hfirst =>
    rw [if_neg hfirst]
    cases hloop : session.loop session.allowance with
    | mk last halted =>
      rw [hloop] at h
      cases halted with
      | error fault => cases h
      | ok haltedBy =>
        rw [← Except.ok.inj h]
        cases haltedBy <;> rfl

section Refraction

variable {spec : RuleSetSpec} {ruleSet : RuleSet} (hcompile : spec.compile = .ok ruleSet)
  {fired : List Activation} {session : Session} (h : History ruleSet fired session)

include hcompile h

/--
Whatever has happened to the facts in between, in every state of a session and after a run of it no rule
has fired twice for the same.
-/
theorem fires_once : (∀ rule ∈ ruleSet.rules, FiresOnce rule fired session.trace)
    ∧ ∃ more, History ruleSet (more ++ fired) session.run.1
      ∧ (∀ rule ∈ ruleSet.rules, FiresOnce rule (more ++ fired) session.run.1.trace)
      ∧ ∀ result, session.run.2 = .ok result → result.trace = session.run.1.trace := by
  have hwellFormed := wellFormed_of_compile hcompile
  obtain ⟨more, hmore⟩ := h.run
  refine ⟨?_, more, hmore, ?_, fun result => trace_of_run⟩
  . intro rule hrule
    exact (h.consistent hwellFormed).firesOnce hwellFormed.names hrule
  . intro rule hrule
    exact (hmore.consistent hwellFormed).firesOnce hwellFormed.names hrule

end Refraction

/-! ### A session that fires again -/

/-- Open orders are closed, and each order is looked at whenever it has changed. -/
def closingSpec : RuleSetSpec where
  factTypes := [{ name := "order" }]
  rules := [
    { name := "close"
      conditions := [.pattern {
        var := "o", factType := "order", tests := [{ field := "open", value := .bool true }] }]
      actions := [{
        kind := .set, target := some "o", field := some "open", value := .literal (.bool false) }] },
    { name := "look"
      priority := 1
      conditions := [.pattern { var := "o", factType := "order" }]
      refireOnChange := true }]

def closingRules : List Rule := [
  { name := "close"
    conditions := [.pattern
      { type := "order", tests := [{ field := "open", op := .eq, value := .bool true }] } "o"]
    action := [.set "o" "open" (.literal (.bool false))] },
  { name := "look"
    priority := 1
    conditions := [.pattern { type := "order" } "o"]
    order := 1
    refireOnChange := true }]

def closingRuleSet (digest : String) : RuleSet where
  factTypes := [{ name := "order" }]
  rules := closingRules
  index := .build closingRules
  digest

theorem compile_closingSpec : closingSpec.compile = .ok (closingRuleSet closingSpec.digest) :=
  compile_eq_ok.mpr ⟨_, _, rfl, rfl, rfl⟩

/-- The session before it has facts. -/
def closingSession (digest : String) : Session where
  id := "s"
  ruleSet := closingRuleSet digest
  store := {
    table := { declared := some [{ name := "order" }] }
    listeners := [Network.listener]
    world := (Network.ofRuleSet (closingRuleSet digest)).1 }
  cycleLimit := .int 1000

/-- The session with an open order. -/
def openSession (digest : String) : Session :=
  { closingSession digest with
    store := ((closingSession digest).store.apply
      (.insert (.text "order") (.record [("open", .bool true)]))).1 }

theorem ofRuleSet_closing : ofRuleSet { id := "s" } [] (closingRuleSet closingSpec.digest)
    = .ok (closingSession closingSpec.digest) :=
  ofRuleSet_default (wellFormed_of_compile compile_closingSpec) "s"

theorem history_openSession :
    History (closingRuleSet closingSpec.digest) [] (openSession closingSpec.digest) :=
  (History.created ofRuleSet_closing).mutated _

theorem agenda_eq_pending_open :
    History (closingRuleSet closingSpec.digest) [] (openSession closingSpec.digest)
    ∧ ∀ name token, (openSession closingSpec.digest).network.agenda.contains (name, token) = true
      ↔ (name, token) ∈ [("close", [1]), ("look", [1])] := by
  have hpending : (openSession closingSpec.digest).network.pending.toOption
      = some [("close", [1]), ("look", [1])] := by
    decide +kernel
  obtain ⟨found, hfound, hagenda, -⟩ := agenda_eq_pending compile_closingSpec history_openSession
  obtain rfl := Except.ok.inj (hfound.symm.trans (toOption_eq_some.mp hpending))
  exact ⟨history_openSession, hagenda⟩

/-- The order is looked at, closed, and looked at again. -/
theorem fires_once_open : (∃ more, History (closingRuleSet closingSpec.digest) more
      (openSession closingSpec.digest).run.1
      ∧ ∀ rule ∈ closingRules, FiresOnce rule more (openSession closingSpec.digest).run.1.trace)
    ∧ ((openSession closingSpec.digest).run.1.trace.map fun entry => (entry.rule, entry.token))
      = [("look", [1]), ("close", [1]), ("look", [1])] := by
  have htrace : ((openSession closingSpec.digest).run.1.trace.map fun (entry : TraceEntry) =>
      (entry.rule, entry.token)) = [("look", [1]), ("close", [1]), ("look", [1])] := by
    decide +kernel
  obtain ⟨-, more, hmore, honce, -⟩ := fires_once compile_closingSpec history_openSession
  rw [List.append_nil] at hmore honce
  exact ⟨⟨more, hmore, honce⟩, htrace⟩

end Session
end ForwardChaining
