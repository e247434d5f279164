import ForwardChaining.Proofs.Network.Level
import ForwardChaining.Proofs.Rule.Identity
import ForwardChaining.Proofs.Session.Create
import ForwardChaining.Proofs.Store.Log
import Mathlib

/-!
This module contains the proof that following changes is the same as matching from scratch after each of
them: whatever was inserted, updated and retracted, at once or in deferred blocks, every stage of every
rule holds what its conditions have over the facts that the network knows.
-/

namespace ForwardChaining

/-- Patterns whose predicates have one identity have one predicate. -/
def SharesPredicates (rules : List Rule) : Prop :=
  ∀ filter, IsPatternOf rules filter → ∀ other, IsPatternOf rules other →
    other.predicate.map (·.ident) = filter.predicate.map (·.ident) →
      other.predicate = filter.predicate

/-- Where the tests of two patterns differ only in which NaN a NaN is, the fact holds none of these. -/
def Fact.Apart (rules : List Rule) (fact : Fact) : Prop :=
  ∀ filter, IsPatternOf rules filter → ∀ other, IsPatternOf rules other →
    other.identity = filter.identity →
      other.tests = filter.tests ∨ (fact.ApartFrom other.tests ∧ fact.ApartFrom filter.tests)

theorem Fact.Apart.shares {rules : List Rule} {fact : Fact} (h : fact.Apart rules)
    (hpredicates : SharesPredicates rules) : SharesFilters rules fact := by
  intro filter hfilter other hother hidentity
  have hpredicate := hpredicates filter hfilter other hother (FactFilter.Identity.mk.inj hidentity).2.2
  rcases h filter hfilter other hother hidentity with htests | ⟨hapart, hapart'⟩
  . have htype := (FactFilter.Identity.mk.inj hidentity).1
    cases other
    cases filter
    simp only at htype htests hpredicate
    rw [htype, htests, hpredicate]
  . exact FactFilter.admits_of_identity hidentity hpredicate hapart hapart'

/--
A fact that the rules can be tested on without a fault. Where the tests of two patterns differ in
nothing but which NaN a NaN is, the fact does not hold one of these.
-/
structure Fact.Regular (rules : List Rule) (fact : Fact) : Prop where
  flat : fact.Flat
  integral : ∀ rule ∈ rules, ∀ condition ∈ rule.conditions, condition.Integral fact
  apart : ∀ filter, IsPatternOf rules filter → ∀ other, IsPatternOf rules other →
    other.identity = filter.identity →
      other.tests = filter.tests ∨ (fact.ApartFrom other.tests ∧ fact.ApartFrom filter.tests)

theorem Fact.Regular.shares {rules : List Rule} {fact : Fact} (h : fact.Regular rules)
    (hpredicates : SharesPredicates rules) : SharesFilters rules fact :=
  Fact.Apart.shares h.apart hpredicates

/-- The value is neither a set nor a float, and holds no NaN. -/
def Value.Plain : Value → Prop
  | .set _ => False
  | .float _ => False
  | x => x.nans = []

def Value.isPlain : Value → Bool
  | .set _ => false
  | .float _ => false
  | x => x.nans.isEmpty

theorem Value.isPlain_iff (x : Value) : x.isPlain = true ↔ x.Plain := by
  cases x <;> simp [Value.isPlain, Value.Plain]

instance (x : Value) : Decidable x.Plain :=
  decidable_of_iff _ x.isPlain_iff

theorem Fact.get_cases (fact : Fact) (field : String) :
    fact.get field = .null ∨ ∃ entry ∈ fact.data, fact.get field = entry.2 := by
  unfold Fact.get
  induction fact.data with
  | nil => exact .inl rfl
  | cons entry entries ih =>
    rw [Entries.get?]
    split
    . exact .inr ⟨entry, by simp, rfl⟩
    . rcases ih with hnull | ⟨other, hother, heq⟩
      . exact .inl hnull
      . exact .inr ⟨other, by simp [hother], heq⟩

theorem Fact.regular_of_plain {fact : Fact} (h : ∀ entry ∈ fact.data, entry.2.Plain)
    (rules : List Rule) : fact.Regular rules := by
  have hplain : ∀ field, (fact.get field).Plain := by
    intro field
    rcases fact.get_cases field with hnull | ⟨entry, hentry, heq⟩
    . rw [hnull]
      rfl
    . rw [heq]
      exact h entry hentry
  have hnans : ∀ field, (fact.get field).nans = [] := by
    intro field
    have hfield := hplain field
    cases hvalue : fact.get field <;> rw [hvalue] at hfield
    case set => exact False.elim hfield
    case float => exact False.elim hfield
    all_goals exact hfield
  have hapart : ∀ tests, fact.ApartFrom tests := by
    intro tests test _ field origin horigin
    rw [hnans field] at horigin
    cases horigin
  refine ⟨?_, ?_, fun _ _ _ _ _ => .inr ⟨hapart _, hapart _⟩⟩
  . rintro field ⟨items, heq⟩
    have hfield := hplain field
    rw [heq] at hfield
    exact hfield
  . intro rule _ condition _
    cases condition with
    | aggregate filter keys test =>
      intro _ x hx
      unfold AggregateTest.contribution at hx
      split at hx
      . exact ⟨1, (Option.some.inj hx).symm⟩
      . split at hx
        . cases hx
        . next field hnamed =>
          split at hx
          . cases hx
          . split at hx
            . next n heq => exact ⟨n, (Option.some.inj hx).symm⟩
            . next y heq =>
              have hfield := hplain field
              rw [heq] at hfield
              exact False.elim hfield
            . cases hx
    | pattern | join | negation => trivial

/-- All values that the change brings are plain. -/
def Change.Plain (change : Change) : Prop :=
  ∀ fact ∈ change.brings, ∀ entry ∈ fact.data, entry.2.Plain

instance (change : Change) : Decidable change.Plain :=
  inferInstanceAs (Decidable (∀ fact ∈ change.brings, ∀ entry ∈ fact.data, entry.2.Plain))

theorem Change.Plain.regular {change : Change} (h : change.Plain) (rules : List Rule) :
    ∀ fact ∈ change.brings, fact.Regular rules :=
  fun fact hfact => Fact.regular_of_plain (h fact hfact) rules

namespace Network

/-- All stages are settled, and no test that the network makes can fail. -/
structure Faithful (net : Network) : Prop where
  sound : net.Sound
  coherent : net.Coherent
  tame : ∀ name, net.Tame name
  settled : ∀ name, net.Settled name fun _ _ => False

theorem Faithful.frame {net net' : Network} (h : net.Faithful) (hruleSet : net'.ruleSet = net.ruleSet)
    (hworking : net'.working = net.working) (hmemories : net'.memories = net.memories) :
    net'.Faithful := by
  have hsound := h.sound.frame hruleSet hworking hmemories
  cases net
  cases net'
  simp only at hruleSet hworking hmemories
  subst hruleSet hworking hmemories
  refine ⟨hsound, ⟨h.coherent.patterns, h.coherent.shares⟩, ?_, h.settled⟩
  intro name
  exact ⟨(h.tame name).flat, (h.tame name).exact, (h.tame name).scope⟩

theorem Coherent.sameRules {net net' : Network} (h : net.Coherent) (hsame : net.SameRules net')
    (hshares : ∀ fact ∈ net'.working.facts, SharesFilters net.ruleSet.rules fact) : net'.Coherent := by
  refine ⟨?_, by rw [hsame.ruleSet]; exact hshares⟩
  rw [hsame.ruleSet]
  exact hsame.forall_filters h.patterns

theorem mem_applied {facts : List Fact} {change : Change} {fact : Fact}
    (h : fact ∈ change.applied facts) : fact ∈ facts ∨ fact ∈ change.brings := by
  cases change with
  | inserted other =>
    rw [Change.applied, List.mem_append, List.mem_singleton] at h
    exact h.imp_right fun heq => by rw [heq]; rfl
  | updated other previous =>
    rw [Change.applied, List.mem_append, List.mem_singleton] at h
    exact h.imp List.mem_of_mem_filter fun heq => by rw [heq]; rfl
  | retracted other => exact .inl (List.mem_of_mem_filter h)

/-- What cannot fail before a change cannot fail behind it, if no test fails on the fact that it brings. -/
theorem tame_applied {net : Network} (h : net.Sound) (htame : ∀ name, net.Tame name) {change : Change}
    (hadmissible : change.Admissible net.working.facts) (hok : (net.onChange change).2 = none)
    (hflat : ∀ fact ∈ change.brings, fact.Flat)
    (hintegral : ∀ fact ∈ change.brings, ∀ rule ∈ net.ruleSet.rules,
      ∀ condition ∈ rule.conditions, condition.Integral fact) (name : String) :
    (net.onChange change).1.Tame name := by
  obtain ⟨-, hsame⟩ := sound_onChange h hadmissible
  refine ⟨?_, ?_, ?_⟩
  . intro fact hfact
    rw [facts_onChange h hadmissible hok] at hfact
    rcases mem_applied hfact with hold | hnew
    . exact (htame name).flat fact hold
    . exact hflat fact hnew
  . exact exact_onChange h hadmissible (htame name).exact
      fun fact hfact rule hrule _ => hintegral fact hfact rule hrule
  . rw [hsame.ruleSet]
    exact (htame name).scope

section OnChange

variable {net : Network} (h : net.Faithful) (hpredicates : SharesPredicates net.ruleSet.rules)
  {change : Change} (hadmissible : change.Admissible net.working.facts)
  (htakes : ∀ fact ∈ change.takes, fact ∈ net.working.facts)
  (hregular : ∀ fact ∈ change.brings, fact.Regular net.ruleSet.rules)

include h hadmissible htakes hregular

theorem finishes_onChange : (net.onChange change).2 = none ∧ ∀ name, net.Finishes name change :=
  tame_onChange h.sound h.tame hadmissible (fun fact hfact => ⟨fact, htakes fact hfact, rfl⟩)
    (fun fact hfact => (hregular fact hfact).flat) fun fact hfact => (hregular fact hfact).integral

include hpredicates

theorem faithful_onChange : (net.onChange change).1.Faithful
    ∧ (net.onChange change).1.ruleSet = net.ruleSet
    ∧ (net.onChange change).1.working.facts = change.applied net.working.facts := by
  obtain ⟨hok, hfinishes⟩ := finishes_onChange h hadmissible htakes hregular
  obtain ⟨hsound, hsame⟩ := sound_onChange h.sound hadmissible
  have hfacts := facts_onChange h.sound hadmissible hok
  refine ⟨⟨hsound, h.coherent.sameRules hsame ?_, ?_, ?_⟩, hsame.ruleSet, hfacts⟩
  . intro fact hfact
    rw [hfacts] at hfact
    rcases mem_applied hfact with hold | hnew
    . exact h.coherent.shares fact hold
    . exact (hregular fact hnew).shares hpredicates
  . exact tame_applied h.sound h.tame hadmissible hok (fun fact hfact => (hregular fact hfact).flat)
      fun fact hfact => (hregular fact hfact).integral
  . intro name
    exact settled_onChange h.sound hadmissible (h.settled name) (hfinishes name)

end OnChange

theorem faithful_follow {net : Network} (h : net.Faithful)
    (hpredicates : SharesPredicates net.ruleSet.rules) {changes : List Change}
    (hlegal : Change.Legal net.working.facts changes)
    (hregular : ∀ change ∈ changes, ∀ fact ∈ change.brings, fact.Regular net.ruleSet.rules) :
    (listener.follow net changes).Faithful
      ∧ (listener.follow net changes).ruleSet = net.ruleSet
      ∧ (listener.follow net changes).working.facts
        = Change.replay net.working.facts changes := by
  induction changes generalizing net with
  | nil => exact ⟨h, rfl, rfl⟩
  | cons change changes ih =>
    obtain ⟨hadmissible, htakes, hlegal⟩ := hlegal
    rw [List.forall_mem_cons] at hregular
    obtain ⟨hnext, hruleSet, hfacts⟩ :=
      faithful_onChange h hpredicates hadmissible htakes hregular.1
    have hrest := ih hnext (by rw [hruleSet]; exact hpredicates) (by rw [hfacts]; exact hlegal)
      (by rw [hruleSet]; exact hregular.2)
    rw [hruleSet, hfacts] at hrest
    exact hrest

theorem faithful_start {ruleSet : RuleSet} (h : ruleSet.WellFormed) :
    (ofRuleSet ruleSet).2 = none ∧ (ofRuleSet ruleSet).1.Faithful
      ∧ (ofRuleSet ruleSet).1.ruleSet = ruleSet ∧ (ofRuleSet ruleSet).1.working.facts = [] := by
  obtain ⟨hok, hsound, hkeeps, hsettled⟩ := start_settled h
  have hfacts : (ofRuleSet ruleSet).1.working.facts = [] := by
    rw [hkeeps.working]
    rfl
  refine ⟨hok, ⟨hsound, ⟨?_, ?_⟩, fun name => (tame_blank h name).keeps hkeeps, hsettled⟩,
    hkeeps.ruleSet, hfacts⟩
  . rw [hkeeps.working, hkeeps.ruleSet]
    exact fun alpha halpha => (patterns_of_blank alpha halpha).2
  . intro fact hfact
    rw [hfacts] at hfact
    cases hfact

/-! ### Matching from scratch -/

/-- The facts by ascending identity, as matching from scratch goes through them. -/
def ascending (net : Network) : List Fact :=
  net.working.facts.mergeSort fun a b => a.id ≤ b.id

/-- What the network maintains is what matching from scratch finds over its facts. -/
structure FromScratch (net : Network) : Prop where
  rules : net.memories.map (·.rule) = net.ruleSet.rules
  /-- Every stage holds what the conditions up to its own have, each token once. -/
  levels : ∀ memory ∈ net.memories, memory.stages.length = memory.rule.conditions.length
    ∧ ∀ i stage, memory.stages[i]? = some stage → stage.tokens.Nodup
      ∧ ∃ found, (Condition.satisfyAll net.ascending memory.rule.vars [[]]
          (memory.rule.conditions.take (i + 1))).outcome = .ok found
        ∧ ∀ token, token ∈ found ↔ token ∈ stage.tokens
  complete : ∃ found, net.rescan.outcome = .ok found
    ∧ ∀ m, m ∈ found ↔ m ∈ net.completeMatches

section Faithful

variable {net : Network} (h : net.Faithful) {memory : RuleMemory} (hmemory : memory ∈ net.memories)

include h hmemory

theorem Faithful.tokens_agree {facts : List Fact} (hperm : facts.Perm net.working.facts) :
    ∃ found, (memory.rule.tokens facts).outcome = .ok found
      ∧ ∀ token, token ∈ found ↔ token ∈ Stage.complete memory.stages := by
  have hfound := memory?_of_mem h.sound hmemory
  have hexact := (h.tame memory.rule.name).exact
  obtain ⟨found, hok⟩ := tokens_ok h.sound h.coherent hexact hfound (h.tame _) hperm
  refine ⟨found, hok, ?_⟩
  exact complete_agrees h.sound h.coherent hexact (h.settled _) hfound
    (h.sound.comparable hperm).distinct' (h.sound.comparable hperm).perm (fun _ _ _ _ _ _ => rfl) hok

end Faithful

theorem outcome_matches {rule : Rule} {facts : List Fact} {tokens : List Token}
    (h : (rule.tokens facts).outcome = .ok tokens) :
    (do return (← rule.tokens facts).map (rule.name, ·) : Logged (List Match)).outcome
      = .ok (tokens.map (rule.name, ·)) := by
  rw [Logged.outcome_bind, h]
  rfl

theorem Faithful.fromScratch {net : Network} (h : net.Faithful) : net.FromScratch := by
  have hperm : net.ascending.Perm net.working.facts := List.mergeSort_perm _ _
  refine ⟨h.sound.rules, ?_, ?_⟩
  . intro memory hmemory
    have hfound := memory?_of_mem h.sound hmemory
    refine ⟨(h.sound.implements _ memory hfound).length_eq.symm, ?_⟩
    intro i stage hstage
    exact level_agrees h.sound h.coherent (h.tame _).exact (h.settled _) hfound (h.tame _) hperm hstage
  . have hall : ∀ rule ∈ net.ruleSet.rules, ∃ found, (do
        return (← rule.tokens net.ascending).map (rule.name, ·) : Logged (List Match)).outcome
          = .ok found := by
      rw [← h.sound.rules, List.forall_mem_map]
      intro memory hmemory
      obtain ⟨tokens, htokens, -⟩ := h.tokens_agree hmemory hperm
      exact ⟨_, outcome_matches htokens⟩
    obtain ⟨found, hfound⟩ := Logged.gather_ok_of_forall hall
    refine ⟨found, hfound, ?_⟩
    intro m
    rw [Logged.mem_of_gather hfound, completeMatches, List.mem_flatMap]
    constructor
    . rintro ⟨rule, hrule, matches', hmatches, hmem⟩
      rw [← h.sound.rules] at hrule
      obtain ⟨memory, hmemory, rfl⟩ := List.mem_map.mp hrule
      obtain ⟨tokens, htokens, hagree⟩ := h.tokens_agree hmemory hperm
      rw [outcome_matches htokens, Except.ok.injEq] at hmatches
      rw [← hmatches] at hmem
      obtain ⟨token, htoken, rfl⟩ := List.mem_map.mp hmem
      exact ⟨memory, hmemory, List.mem_map.mpr ⟨token, (hagree token).mp htoken, rfl⟩⟩
    . rintro ⟨memory, hmemory, hmem⟩
      obtain ⟨token, htoken, rfl⟩ := List.mem_map.mp hmem
      obtain ⟨tokens, htokens, hagree⟩ := h.tokens_agree hmemory hperm
      refine ⟨memory.rule, ?_, _, outcome_matches htokens,
        List.mem_map.mpr ⟨token, (hagree token).mpr htoken, rfl⟩⟩
      rw [← h.sound.rules]
      exact List.mem_map.mpr ⟨memory, hmemory, rfl⟩

end Network

namespace Session

theorem faithful_ofRuleSet {ruleSet : RuleSet} (h : ruleSet.WellFormed) {options : SessionOptions}
    {journal : List LogEntry} {session : Session}
    (hsession : ofRuleSet options journal ruleSet = .ok session) :
    session.network.Faithful ∧ session.network.ruleSet = ruleSet
      ∧ session.network.working.facts = [] := by
  obtain ⟨-, hstore⟩ := ofRuleSet_eq_ok hsession
  obtain ⟨-, hstart, hruleSet, hfacts⟩ := Network.faithful_start h
  rw [network, hstore]
  exact ⟨hstart.frame rfl rfl rfl, hruleSet, hfacts⟩

section Network

variable {spec : RuleSetSpec} {ruleSet : RuleSet} (hcompile : spec.compile = .ok ruleSet)
  {options : SessionOptions} {journal : List LogEntry} {session : Session}
  (hsession : ofRuleSet options journal ruleSet = .ok session)

include hcompile hsession

end Network

/-- An order that is not paid and a larger one, as long as the amounts of all orders reach some sum. -/
def unpaidSpec : RuleSetSpec where
  factTypes := [{ name := "order" }, { name := "payment" }]
  rules := [{
    name := "unpaid"
    conditions := [
      .pattern { var := "a", factType := "order" },
      .pattern { var := "b", factType := "order" },
      .join { left := some "a.amount", operator := "<", right := some "b.amount" },
      .negation { factType := "payment", correlations := [("of", "a.id")] },
      .aggregate { factType := "order", function := "sum", field := some "amount", threshold := .int 3 }] }]

def unpaidRule : Rule where
  name := "unpaid"
  conditions := [
    .pattern { type := "order" } "a",
    .pattern { type := "order" } "b",
    .join { left := some ⟨"a", "amount"⟩, op := .lt, right := some ⟨"b", "amount"⟩ },
    .negation { type := "payment" } [⟨"of", ⟨"a", "id"⟩⟩],
    .aggregate { type := "order" } []
      { function := .sum, field := some "amount", threshold := .int 3 }]

theorem compile_unpaidSpec : unpaidSpec.compile = .ok {
    factTypes := [{ name := "order" }, { name := "payment" }]
    rules := [unpaidRule]
    index := .build [unpaidRule]
    digest := unpaidSpec.digest } :=
  compile_eq_ok.mpr ⟨_, _, rfl, by cbv, rfl⟩

theorem sharesPredicates_unpaid : SharesPredicates [unpaidRule] := by
  rintro filter ⟨rule, hrule, var, hmem⟩ other ⟨rule', hrule', var', hmem'⟩ -
  rw [List.mem_singleton.mp hrule] at hmem
  rw [List.mem_singleton.mp hrule'] at hmem'
  simp only [unpaidRule, List.mem_cons, Condition.pattern.injEq, reduceCtorEq, List.not_mem_nil,
    or_false] at hmem hmem'
  rcases hmem with ⟨rfl, -⟩ | ⟨rfl, -⟩ <;> rcases hmem' with ⟨rfl, -⟩ | ⟨rfl, -⟩ <;> rfl

/-- Orders that come in a deferred block, a payment, and changes of these. -/
def unpaidMutations : List Mutation := [
  .enter,
  .insert (.text "order") (.record [("id", .int 7), ("amount", .int 1)]),
  .insert (.text "order") (.record [("id", .int 8), ("amount", .int 2)]),
  .leave,
  .insert (.text "payment") (.record [("of", .int 7)]),
  .modify (.int 1) [("amount", .int 4)],
  .retract (.int 3)]

end Session
end ForwardChaining
