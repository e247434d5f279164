import ForwardChaining.Proofs.Network.Vacancy
import ForwardChaining.Proofs.Session.Scope
import ForwardChaining.Proofs.Session.Tracking

/-!
This module contains what an aggregate answers in a session in which no live fact has the type that it
aggregates, from the start or because the last one has gone. It is not unsatisfied: the sum of nothing is
zero and the least and the greatest are null, and this value is compared with the threshold.
-/

namespace ForwardChaining

namespace Network

theorem settled_follow {net : Network} (h : net.Sound) {name : String}
    (hsettled : net.Settled name fun _ _ => False) {seen : List Fact} (hknown : net.working.facts ⊆ seen)
    {changes : List Change} (hlegal : Change.Legal seen changes)
    (hfinishes : ∀ before change more, before ++ change :: more = changes →
      (listener.follow net before).Finishes name change) :
    (listener.follow net changes).Settled name fun _ _ => False := by
  induction changes generalizing net seen with
  | nil => exact hsettled
  | cons change changes ih =>
    have hadmissible := Change.admissible_subset hknown hlegal.1
    apply ih (sound_onChange h hadmissible).1
      (settled_onChange h hadmissible hsettled (hfinishes [] change changes rfl))
      (known_onChange h hadmissible hknown) hlegal.2.2
    intro before next more heq
    exact hfinishes (change :: before) next more (by rw [← heq]; rfl)

end Network

namespace Session

section Vacant

variable {spec : RuleSetSpec} {ruleSet : RuleSet} (hcompile : spec.compile = .ok ruleSet)

include hcompile

theorem settled_applyAll {options : SessionOptions} {journal : List LogEntry} {session : Session}
    (hsession : ofRuleSet options journal ruleSet = .ok session) (mutations : List Mutation)
    {name : String}
    (hfinishes : ∀ before change more, before ++ change :: more = session.store.delivered mutations →
      (Network.listener.follow session.network before).Finishes name change) :
    (session.store.applyAll mutations).world.Settled name fun _ _ => False := by
  obtain ⟨hlisteners, hstart⟩ := recorded_ofRuleSet hsession
  obtain ⟨hfaithful, -, hfacts⟩ := faithful_ofRuleSet (wellFormed_of_compile hcompile) hsession
  have hlegal := (Change.legal_append.mp (hstart.applyAll mutations).legal).1
  rw [((Store.mirrors_silent hlisteners).applyAll mutations).world]
  apply Network.settled_follow hfaithful.sound (hfaithful.settled name) _ hlegal hfinishes
  rw [hfacts]
  exact List.Subset.refl []

/--
An aggregate over a type without live facts compares the value of its function over nothing. From scratch,
it keeps all tokens that satisfy the conditions before it, or it drops all of them, and the rule has no
match. In the network its stage answers in the same way for every token before it, and holds all of them or
none when no work for the rule is left undone. The least and the greatest of nothing only pass tests for
equality or membership.
-/
theorem vacancy_decides {fired : List Activation} {session : Session} (h : History ruleSet fired session)
    (hpending : session.store.pending = []) {rule : Rule} (hrule : rule ∈ ruleSet.rules)
    {before after : List Condition} {filter : FactFilter} {keys : List KeyBinding} {test : AggregateTest}
    (hsplit : rule.conditions = before ++ .aggregate filter keys test :: after)
    (hvacant : ∀ fact ∈ session.store.table.live, fact.type ≠ filter.type) :
    (∀ facts ⊆ session.store.table.live, Distinct facts → ∀ tokens,
      (Condition.satisfyAll facts rule.vars [[]] before).outcome = .ok tokens →
        (rule.tokens facts).outcome = if test.passesNothing then
          (Condition.satisfyAll facts rule.vars tokens after).outcome else .ok [])
    ∧ (∃ memory stage, session.network.memory? rule.name = some memory ∧ memory.rule = rule
      ∧ memory.stages[before.length]? = some stage
      ∧ (∀ token ∈ Stage.parents before.length memory.stages,
        (stage.node.advance session.network.working rule.vars token).outcome
          = .ok (if test.passesNothing then [token] else []))
      ∧ ((session.network.Settled rule.name fun _ _ => False) → ∀ token, token ∈ stage.tokens
        ↔ test.passesNothing = true ∧ token ∈ Stage.parents before.length memory.stages))
    ∧ (test.function = .min ∨ test.function = .max → test.passesNothing = true →
      test.op ∈ [.eq, .ne, .isIn, .notIn]) := by
  obtain ⟨hsound, hscoped⟩ := h.scoped hcompile
  have hwellFormed := wellFormed_of_compile hcompile
  have hattended := (h.consistent hwellFormed).attended
  have hkept : session.network.Kept ruleSet _ session.store.table.live := hattended.known hpending
  refine ⟨?_, ?_, AggregateTest.op_of_passesNothing⟩
  . intro facts hfacts hdistinct tokens htokens
    apply Condition.tokens_vacant hdistinct (fun fact hfact => hvacant fact (hfacts hfact))
      (hwellFormed.scope rule hrule) _ hsplit htokens
    exact hwellFormed.safe rule hrule
  . obtain ⟨memory, hmem, rfl⟩ : ∃ memory ∈ session.network.memories, memory.rule = rule := by
      rw [← List.mem_map, hsound.rules, hkept.same]
      exact hrule
    have hmemory := Network.memory?_of_mem hsound hmem
    have hcondition : memory.rule.conditions[before.length]? = some (.aggregate filter keys test) := by
      simp [hsplit]
    obtain ⟨stage, hstage, hadvance, htokens⟩ := Network.stage_vacant hsound hscoped hmemory hcondition
      fun fact hfact => hvacant fact (hkept.known hfact)
    exact ⟨memory, stage, hmemory, rfl, hstage, hadvance, htokens⟩

end Vacant

/-! ### The sum of nothing -/

/-- That the sum of all values is at least zero is true of no items, both in the network and from scratch. -/
theorem sum_of_nothing_passes : totalSpec.compile = .ok (totalRuleSet totalSpec.digest)
    ∧ History (totalRuleSet totalSpec.digest) [] (totalSession totalSpec.digest)
    ∧ (totalSession totalSpec.digest).store.pending = []
    ∧ (totalSession totalSpec.digest).store.table.live = []
    ∧ (totalSession totalSpec.digest).network.completeMatches = [("total", [])]
    ∧ (totalSession totalSpec.digest).network.rescan.outcome = .ok [("total", [])] := by
  obtain ⟨hmatches, hscratch⟩ :
      (totalSession totalSpec.digest).network.completeMatches = [("total", [])]
        ∧ (totalSession totalSpec.digest).network.rescan.outcome.toOption = some [("total", [])] := by
    decide +kernel
  exact ⟨compile_totalSpec, .created ofRuleSet_total, rfl, rfl, hmatches, toOption_eq_some.mp hscratch⟩

/-- An item comes and goes. -/
def fleeting : List Mutation := [
  .insert (.text "item") (.record [("value", .int (-3))]),
  .retract (.int 1)]

def fleetingItem : Fact where
  id := 1
  type := "item"
  data := [(.text "value", .int (-3))]
  version := 1
  recency := 1

/-- The session after that. -/
def vacatedSession (digest : String) : Session :=
  { totalSession digest with store := (totalSession digest).store.applyAll fleeting }

theorem settled_vacated : (vacatedSession totalSpec.digest).network.Settled "total" fun _ _ => False := by
  have hdelivered : ∀ digest, (totalSession digest).store.delivered fleeting
      = [.inserted fleetingItem, .retracted fleetingItem] := by
    intro digest
    cbv
  obtain ⟨hinserted, hretracted⟩ :
      (totalSession totalSpec.digest).network.leftByInsert fleetingItem = []
        ∧ (Network.listener.follow (totalSession totalSpec.digest).network
          [.inserted fleetingItem]).leftByRetract fleetingItem = [] := by
    decide +kernel
  apply settled_applyAll compile_totalSpec ofRuleSet_total fleeting
  intro before change more heq
  rw [hdelivered] at heq
  rcases before with _ | ⟨first, _ | ⟨second, before⟩⟩
  . obtain ⟨rfl, -⟩ := List.cons.inj heq
    change ∀ task ∈ (totalSession totalSpec.digest).network.leftByInsert fleetingItem, _
    simp [hinserted]
  . obtain ⟨rfl, hrest⟩ := List.cons.inj heq
    obtain ⟨rfl, -⟩ := List.cons.inj hrest
    change ∀ task ∈ (Network.listener.follow (totalSession totalSpec.digest).network
      [.inserted fleetingItem]).leftByRetract fleetingItem, _
    simp [hretracted]
  . simp at heq

def totalTest : AggregateTest where
  function := .sum
  field := some "value"
  threshold := .int 0

def totalRule : Rule where
  name := "total"
  conditions := [.aggregate { type := "item" } [] totalTest]

/-- With the item, the sum is less than zero. When it has gone, the rule matches again. -/
theorem vacancy_decides_total :
    ((totalSession totalSpec.digest).store.applyAll (fleeting.take 1)).world.completeMatches = []
    ∧ (∃ memory stage, (vacatedSession totalSpec.digest).network.memory? "total" = some memory
      ∧ memory.stages[0]? = some stage ∧ ∀ token, token ∈ stage.tokens ↔ token = [])
    ∧ (totalRule.tokens []).outcome = .ok [[]] := by
  obtain ⟨hbefore, hpending, hlive⟩ :
      ((totalSession totalSpec.digest).store.applyAll (fleeting.take 1)).world.completeMatches = []
        ∧ (vacatedSession totalSpec.digest).store.pending = []
        ∧ (vacatedSession totalSpec.digest).store.table.live = [] := by
    decide +kernel
  have hhistory : History (totalRuleSet totalSpec.digest) [] (vacatedSession totalSpec.digest) :=
    (History.created ofRuleSet_total).applyAll fleeting
  have hrule : totalRule ∈ (totalRuleSet totalSpec.digest).rules :=
    List.mem_singleton.mpr rfl
  have hsplit : totalRule.conditions = [] ++ .aggregate { type := "item" } [] totalTest :: [] := rfl
  have hpasses : totalTest.passesNothing = true := by rfl
  obtain ⟨hscratch, ⟨memory, stage, hmemory, -, hstage, -, htokens⟩, -⟩ :=
    vacancy_decides compile_totalSpec hhistory hpending hrule hsplit (by rw [hlive]; simp)
  refine ⟨hbefore, ⟨memory, stage, hmemory, hstage, ?_⟩, ?_⟩
  . intro token
    rw [htokens settled_vacated token, hpasses]
    simp [Stage.parents, Stage.complete]
  . rw [hscratch [] (by simp) .nil [[]] rfl, hpasses]
    rfl

end Session
end ForwardChaining
