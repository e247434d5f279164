import ForwardChaining.Proofs.Network.Equivalence
import ForwardChaining.Proofs.Session.Refraction

/-!
This module contains what a fault while matching one rule does to the others. A rule of which no work is
left undone has the matches that it should have, whatever happens to the other rules. But a change is worked
off rule by rule, and a fault ends it, so that the rules behind the one that fails miss the change.
-/

namespace ForwardChaining

namespace Change

theorem filter_applied {facts facts' : List Fact} {relevant : Fact → Bool}
    (h : facts.filter relevant = facts'.filter relevant) (change : Change) :
    (change.applied facts).filter relevant = (change.applied facts').filter relevant := by
  have hwithout : ∀ id, (without id facts).filter relevant = (without id facts').filter relevant := by
    intro id
    rw [without, without, List.filter_comm, h, List.filter_comm]
  cases change with
  | inserted fact => rw [applied, applied, List.filter_append, List.filter_append, h]
  | updated fact previous =>
    rw [applied, applied, List.filter_append, List.filter_append, hwithout]
  | retracted fact => exact hwithout fact.id

end Change

namespace Network

/-- Matching a rule is up to date, and the network knows the facts that the rule takes. -/
structure Serves (net : Network) (ruleSet : RuleSet) (rule : Rule) (seen : List Fact) : Prop where
  same : net.ruleSet = ruleSet
  sound : net.Sound
  coherent : net.Coherent
  exact : net.Exact rule.name
  settled : net.Settled rule.name fun _ _ => False
  known : net.working.facts ⊆ seen
  relevant : ∀ relevant : Fact → Bool, (∀ fact, net.Ignores rule.name fact.type → relevant fact = false) →
    net.working.facts.filter relevant = seen.filter relevant

variable {net : Network} {ruleSet : RuleSet} {rule : Rule} {seen : List Fact}

theorem Serves.onChange (h : net.Serves ruleSet rule seen) (hnames : (ruleSet.rules.map (·.name)).Nodup)
    (hrule : rule ∈ ruleSet.rules) (hpredicates : SharesPredicates ruleSet.rules) {change : Change}
    (hadmissible : change.Admissible seen)
    (hregular : ∀ fact ∈ change.brings, fact.Apart ruleSet.rules
      ∧ ∀ condition ∈ rule.conditions, condition.Integral fact)
    (hfinishes : net.Finishes rule.name change) :
    (net.onChange change).1.Serves ruleSet rule (change.applied seen) := by
  have hadmissible' := Change.admissible_subset h.known hadmissible
  obtain ⟨hsound, hsame⟩ := sound_onChange h.sound hadmissible'
  have hbrought : (net.onChange change).1.working.facts ⊆ change.applied net.working.facts :=
    known_onChange h.sound hadmissible' (List.Subset.refl _)
  have hthis : ∀ other ∈ net.ruleSet.rules, other.name = rule.name → other = rule := by
    intro other hother hname
    rw [h.same] at hother
    exact List.inj_on_of_nodup_map hnames hother hrule hname
  refine ⟨hsame.ruleSet.trans h.same, hsound, h.coherent.sameRules hsame ?_, ?_,
    settled_onChange h.sound hadmissible' h.settled hfinishes,
    known_onChange h.sound hadmissible' h.known, ?_⟩
  . intro fact hfact
    rcases mem_applied (hbrought hfact) with hold | hnew
    . exact h.coherent.shares fact hold
    . rw [h.same]
      exact (hregular fact hnew).1.shares hpredicates
  . apply exact_onChange h.sound hadmissible' h.exact
    intro fact hfact other hother hname
    rw [hthis other hother hname]
    exact (hregular fact hfact).2
  . intro relevant hrelevant
    unfold Ignores at hrelevant
    rw [hsame.ruleSet] at hrelevant
    rw [relevant_onChange h.sound hadmissible' hfinishes hrelevant]
    exact Change.filter_applied (h.relevant relevant hrelevant) change

theorem Serves.follow (h : net.Serves ruleSet rule seen) (hnames : (ruleSet.rules.map (·.name)).Nodup)
    (hrule : rule ∈ ruleSet.rules) (hpredicates : SharesPredicates ruleSet.rules)
    {changes : List Change} (hlegal : Change.Legal seen changes)
    (hregular : ∀ change ∈ changes, ∀ fact ∈ change.brings, fact.Apart ruleSet.rules
      ∧ ∀ condition ∈ rule.conditions, condition.Integral fact)
    (hfinishes : ∀ before change more, before ++ change :: more = changes →
      (listener.follow net before).Finishes rule.name change) :
    (listener.follow net changes).Serves ruleSet rule (Change.replay seen changes) := by
  induction changes generalizing net seen with
  | nil => exact h
  | cons change changes ih =>
    rw [List.forall_mem_cons] at hregular
    have hnext := h.onChange hnames hrule hpredicates hlegal.1 hregular.1
      (hfinishes [] change changes rfl)
    apply ih hnext hlegal.2.2 hregular.2
    intro before next more heq
    exact hfinishes (change :: before) next more (by rw [← heq]; rfl)

theorem Serves.complete (h : net.Serves ruleSet rule seen) (hrule : rule ∈ ruleSet.rules)
    (hdistinct : Distinct seen) {facts : List Fact} (hperm : facts.Perm seen) {found : List Token}
    (hok : (rule.tokens facts).outcome = .ok found) (token : Token) :
    token ∈ found ↔ (rule.name, token) ∈ net.completeMatches := by
  obtain ⟨tokens, hmatched⟩ := h.sound.exists_matched (h.same ▸ hrule)
  obtain ⟨memory, hmemory, rfl, rfl⟩ := exists_of_matched hmatched
  have hrelevant := h.relevant
    (fun fact => decide (∃ condition ∈ memory.rule.conditions, condition.RefersTo fact.type)) (by
      intro fact hignores
      rw [decide_eq_false_iff_not]
      rintro ⟨condition, hcondition, hrefers⟩
      exact hignores memory.rule (h.same ▸ hrule) rfl condition hcondition hrefers)
  have hwithin : ∀ condition ∈ memory.rule.conditions, condition.Within
      fun fact => decide (∃ condition ∈ memory.rule.conditions, condition.RefersTo fact.type) := by
    intro condition hcondition filter hfilter fact hadmits
    rw [decide_eq_true_eq]
    exact ⟨condition, hcondition, filter, hfilter, (FactFilter.type_of_admits hadmits).symm⟩
  have hdistinct' : Distinct facts := (hperm.map _).nodup_iff.mpr hdistinct
  have hperm' := hperm.filter
    (fun fact => decide (∃ condition ∈ memory.rule.conditions, condition.RefersTo fact.type))
  rw [← hrelevant] at hperm'
  rw [complete_agrees h.sound h.coherent h.exact h.settled hmemory hdistinct' hperm' hwithin hok token,
    mem_completeMatches h.sound]
  constructor
  . exact fun hmem => ⟨_, _, hmatched, hmem⟩
  . rintro ⟨rule', tokens', hmatched', hmem⟩
    obtain ⟨rfl, rfl⟩ := Prod.mk.inj (Option.some.inj (hmatched.symm.trans hmatched'))
    exact hmem

end Network

namespace Session

section Isolation

variable {spec : RuleSetSpec} {ruleSet : RuleSet} (hcompile : spec.compile = .ok ruleSet)
  {options : SessionOptions} {journal : List LogEntry} {session : Session}
  (hsession : ofRuleSet options journal ruleSet = .ok session)

include hcompile hsession

/--
Whatever is done to the facts of a session, and whatever goes wrong while other rules are matched: if no
work for a rule is left undone, then with nothing in the queue the complete matches of the rule are what
matching it from scratch finds over the live facts, if that finds anything.
-/
theorem matches_isolated (hpredicates : SharesPredicates ruleSet.rules) {rule : Rule}
    (hrule : rule ∈ ruleSet.rules) (mutations : List Mutation)
    (hregular : ∀ change ∈ session.store.delivered mutations, ∀ fact ∈ change.brings,
      fact.Apart ruleSet.rules ∧ ∀ condition ∈ rule.conditions, condition.Integral fact)
    (hfinishes : ∀ before change more, before ++ change :: more = session.store.delivered mutations →
      (Network.listener.follow session.network before).Finishes rule.name change)
    (hpending : (session.store.applyAll mutations).pending = []) {found : List Token}
    (hok : (rule.tokens (session.store.applyAll mutations).table.live).outcome = .ok found)
    (token : Token) :
    token ∈ found ↔ (rule.name, token) ∈ (session.store.applyAll mutations).world.completeMatches := by
  have hwellFormed := wellFormed_of_compile hcompile
  obtain ⟨hlisteners, hstart⟩ := recorded_ofRuleSet hsession
  obtain ⟨hfaithful, hsame, hfacts⟩ := faithful_ofRuleSet hwellFormed hsession
  have hserves : session.network.Serves ruleSet rule [] :=
    ⟨hsame, hfaithful.sound, hfaithful.coherent, (hfaithful.tame _).exact, hfaithful.settled _,
      by rw [hfacts]; exact List.Subset.refl _, fun _ _ => by rw [hfacts]⟩
  have hlast := (Store.mirrors_silent hlisteners).applyAll mutations
  have hrecorded := hstart.applyAll mutations
  have hlegal := hrecorded.legal
  have hlive := hrecorded.live
  rw [← hlast.pending, hpending, List.append_nil] at hlegal hlive
  rw [← hlast.table] at hlive
  have hdistinct : Distinct (session.store.applyAll mutations).table.live := by
    rw [hlast.table]
    exact hrecorded.table.distinct
  rw [hlast.world]
  exact (hserves.follow hwellFormed.names hrule hpredicates hlegal hregular hfinishes).complete hrule
    ((hlive.map _).nodup_iff.mpr hdistinct) hlive.symm hok token

end Isolation

/-! ### A rule that fails between two others -/

/-- The second rule looks a key up in a set, which fails for keys that cannot be hashed. -/
def lookupSpec : RuleSetSpec where
  factTypes := [{ name := "item" }]
  rules := [
    { name := "before", conditions := [.pattern { var := "i", factType := "item" }] },
    { name := "lookup"
      conditions := [.pattern { var := "i", factType := "item" },
        .join { left := some "i.key", operator := "in", right := some "i.keys" }] },
    { name := "behind", conditions := [.pattern { var := "i", factType := "item" }] }]

def beforeRule : Rule where
  name := "before"
  conditions := [.pattern { type := "item" } "i"]

def lookupRule : Rule where
  name := "lookup"
  conditions := [.pattern { type := "item" } "i",
    .join { left := some ⟨"i", "key"⟩, op := .isIn, right := some ⟨"i", "keys"⟩ }]
  order := 1

def behindRule : Rule where
  name := "behind"
  conditions := [.pattern { type := "item" } "i"]
  order := 2

def lookupRuleSet (digest : String) : RuleSet where
  factTypes := [{ name := "item" }]
  rules := [beforeRule, lookupRule, behindRule]
  index := .build [beforeRule, lookupRule, behindRule]
  digest

theorem compile_lookupSpec : lookupSpec.compile = .ok (lookupRuleSet lookupSpec.digest) :=
  compile_eq_ok.mpr ⟨_, _, rfl, rfl, rfl⟩

/-- The session before it has facts. -/
def lookupSession (digest : String) : Session where
  id := "s"
  ruleSet := lookupRuleSet digest
  store := {
    table := { declared := some [{ name := "item" }] }
    listeners := [Network.listener]
    world := (Network.ofRuleSet (lookupRuleSet digest)).1 }
  cycleLimit := .int 1000

theorem ofRuleSet_lookup : ofRuleSet { id := "s" } [] (lookupRuleSet lookupSpec.digest)
    = .ok (lookupSession lookupSpec.digest) :=
  ofRuleSet_default (wellFormed_of_compile compile_lookupSpec) "s"

/-- An item whose key is a list. -/
def listItem : Fact where
  id := 1
  type := "item"
  data := [(.text "key", .list [.int 1]), (.text "keys", .set [.int 1])]
  version := 1
  recency := 1

def insertListItem : Mutation :=
  .insert (.text "item") (.record [("key", .list [.int 1]), ("keys", .set [.int 1])])

theorem lookup_fails (digest : String) :
    ((lookupSession digest).store.apply insertListItem).2 = some (.unhashable "list")
      ∧ ((lookupSession digest).store.applyAll [insertListItem]).pending = []
      ∧ ((lookupSession digest).store.applyAll [insertListItem]).table.live = [listItem]
      ∧ ((lookupSession digest).store.applyAll [insertListItem]).world.completeMatches
        = [("before", [1])] := by
  refine ⟨?_, ?_, ?_, ?_⟩ <;> cbv

theorem filter_lookup {filter : FactFilter} (h : IsPatternOf [beforeRule, lookupRule, behindRule] filter) :
    filter = { type := "item" } := by
  obtain ⟨rule, hrule, var, hmem⟩ := h
  simp only [List.mem_cons, List.not_mem_nil, or_false] at hrule
  rcases hrule with rfl | rfl | rfl <;>
    simp only [beforeRule, lookupRule, behindRule, List.mem_cons, List.not_mem_nil, or_false, reduceCtorEq,
      Condition.pattern.injEq] at hmem <;> exact hmem.1

/-- The rule before the one that fails has the match that it should have. -/
theorem matches_isolated_before :
    ((lookupSession lookupSpec.digest).store.apply insertListItem).2 = some (.unhashable "list")
      ∧ ∀ token, token ∈ [[1]] ↔ ("before", token) ∈
        ((lookupSession lookupSpec.digest).store.applyAll [insertListItem]).world.completeMatches := by
  have hdelivered : ∀ digest, (lookupSession digest).store.delivered [insertListItem]
      = [.inserted listItem] := by
    intro digest
    cbv
  have hleft : ∀ digest, ((lookupSession digest).network.leftByInsert listItem).map Task.rule
      = ["lookup", "behind"] := by
    intro digest
    cbv
  have htokens : (beforeRule.tokens [listItem]).outcome = .ok [[1]] := by
    cbv
  obtain ⟨hfault, hpending, hlive, -⟩ := lookup_fails lookupSpec.digest
  refine ⟨hfault, matches_isolated compile_lookupSpec ofRuleSet_lookup ?_ (List.mem_cons_self ..)
    [insertListItem] ?_ ?_ hpending (by rw [hlive]; exact htokens)⟩
  . intro filter hfilter other hother _
    rw [filter_lookup hfilter, filter_lookup hother]
  . rw [hdelivered, List.forall_mem_singleton]
    intro fact _
    refine ⟨?_, ?_⟩
    . intro filter hfilter other hother _
      exact .inl (by rw [filter_lookup hfilter, filter_lookup hother])
    . intro condition hcondition
      rw [List.mem_singleton.mp hcondition]
      trivial
  . intro before change more heq
    rw [hdelivered] at heq
    obtain ⟨rfl, hrest⟩ : before = [] ∧ change :: more = [.inserted listItem] := by
      cases before with
      | nil => exact ⟨rfl, heq⟩
      | cons first before => simp at heq
    obtain ⟨rfl, -⟩ := List.cons.inj hrest
    intro task htask hname
    have hmem : task.rule
        ∈ ((lookupSession lookupSpec.digest).network.leftByInsert listItem).map Task.rule :=
      List.mem_map.mpr ⟨task, htask, rfl⟩
    rw [hleft, hname] at hmem
    simp [beforeRule] at hmem

/-- The rule behind the one that fails misses the match that it should have. -/
theorem behind_misses : lookupSpec.compile = .ok (lookupRuleSet lookupSpec.digest)
    ∧ History (lookupRuleSet lookupSpec.digest) []
      { lookupSession lookupSpec.digest with
        store := (lookupSession lookupSpec.digest).store.applyAll [insertListItem] }
    ∧ ((lookupSession lookupSpec.digest).store.applyAll [insertListItem]).pending = []
    ∧ behindRule ∈ (lookupRuleSet lookupSpec.digest).rules
    ∧ (behindRule.tokens
        ((lookupSession lookupSpec.digest).store.applyAll [insertListItem]).table.live).outcome = .ok [[1]]
    ∧ ("behind", [1]) ∉
        ((lookupSession lookupSpec.digest).store.applyAll [insertListItem]).world.completeMatches := by
  have htokens : (behindRule.tokens [listItem]).outcome = .ok [[1]] := by
    cbv
  obtain ⟨-, hpending, hlive, hmatches⟩ := lookup_fails lookupSpec.digest
  refine ⟨compile_lookupSpec, (History.created ofRuleSet_lookup).applyAll [insertListItem], hpending,
    ?_, ?_, ?_⟩
  . simp [lookupRuleSet]
  . rw [hlive]
    exact htokens
  . rw [hmatches]
    simp

end Session
end ForwardChaining
