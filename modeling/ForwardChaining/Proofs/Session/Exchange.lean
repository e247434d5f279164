import ForwardChaining.Proofs.Session.Refinement

/-!
This module contains that the facts of a session can be given to a session of other rules, as long as these
rules can be tested on them: the sessions then differ in their rules and in what their networks hold.
-/

namespace ForwardChaining

/-! ### Rules with conditions of others -/

section Conditions

variable {rules rules' : List Rule}
  (hcovered : ∀ rule ∈ rules', ∃ other ∈ rules, other.conditions = rule.conditions)

include hcovered

theorem IsPatternOf.of_covered {filter : FactFilter} (h : IsPatternOf rules' filter) :
    IsPatternOf rules filter := by
  obtain ⟨rule, hrule, var, hpattern⟩ := h
  obtain ⟨other, hother, hconditions⟩ := hcovered rule hrule
  exact ⟨other, hother, var, hconditions ▸ hpattern⟩

theorem SharesPredicates.of_covered (h : SharesPredicates rules) : SharesPredicates rules' :=
  fun filter hfilter other hother =>
    h filter (hfilter.of_covered hcovered) other (hother.of_covered hcovered)

theorem Fact.Regular.of_covered {fact : Fact} (h : fact.Regular rules) : fact.Regular rules' := by
  refine ⟨h.flat, ?_, fun filter hfilter other hother =>
    h.apart filter (hfilter.of_covered hcovered) other (hother.of_covered hcovered)⟩
  intro rule hrule
  obtain ⟨other, hother, hconditions⟩ := hcovered rule hrule
  rw [← hconditions]
  exact h.integral other hother

end Conditions

/-! ### Insertions -/

namespace Store

theorem publish_single {store : Store Network} (hlisteners : store.listeners = [Network.listener])
    (hdepth : store.depth = 0) (change : Change) (result : α) :
    store.publish change result = ({ store with world := (store.world.onChange change).1 },
      match (store.world.onChange change).2 with
        | none => .ok result
        | some fault => .error fault) := by
  have hdeliver : deliver change store.world store.listeners = store.world.onChange change := by
    rw [hlisteners, deliver_single]
    rfl
  simp only [publish, emit, hdepth, if_true, hdeliver]
  cases (store.world.onChange change).2 <;> rfl

theorem insert_eq_ok {store next : Store Network} {tag data : Value} {id : Int}
    (h : store.insert tag data = (next, .ok id)) (hlisteners : store.listeners = [Network.listener])
    (hdepth : store.depth = 0) : ∃ fact, store.table.Follows next.table (some (.inserted fact))
    ∧ next.listeners = store.listeners ∧ next.depth = store.depth
    ∧ ∀ net : Network, (net.onChange (.inserted fact)).2 = none →
      ({ store with world := net } : Store Network).insert tag data
        = ({ next with world := (net.onChange (.inserted fact)).1 }, .ok id) := by
  unfold insert at h ⊢
  cases hdata : data.toEntriesOrEmpty with
  | error fault =>
    rw [hdata] at h
    cases h
  | ok entries =>
    obtain ⟨table', ⟨fault, heq, -⟩ | ⟨fact, heq, hfollows⟩⟩ := store.table.follows_insert tag entries
    . simp only [hdata, heq] at h
      cases h
    . simp only [hdata, heq] at h ⊢
      rw [publish_single (by exact hlisteners) (by exact hdepth), Prod.mk.injEq] at h
      obtain ⟨rfl, hresult⟩ := h
      refine ⟨fact, hfollows, rfl, rfl, ?_⟩
      intro net hok
      have hid : Except.ok fact.id = (Except.ok id : Except Fault Int) := by
        split at hresult
        . exact hresult
        . cases hresult
      rw [publish_single (by exact hlisteners) (by exact hdepth), hok, hid]

end Store

/-! ### Sessions -/

/-- The interpreter with other rules. -/
def Naive.withRules (state : Naive) (rules : List Rule) : Naive :=
  { state with rules }

namespace Session

/-- The session with other rules, and with a network of them. -/
def withRules (session : Session) (ruleSet : RuleSet) (net : Network) : Session :=
  { session with ruleSet, store := { session.store with world := net } }

section Exchange

variable {ruleSet ruleSet' : RuleSet} (hwellFormed : ruleSet'.WellFormed)
  {options : SessionOptions} {journal : List LogEntry}

theorem live_of_load {session last : Session} {facts : List InitialFact}
    (h : session.load facts = .ok last) (hlisteners : session.store.listeners = [Network.listener])
    (hdepth : session.store.depth = 0) : session.store.table.live ⊆ last.store.table.live := by
  induction facts generalizing session with
  | nil =>
    cases h
    exact List.Subset.refl _
  | cons item facts ih =>
    unfold load at h
    simp only [doBind_eq_ok] at h
    obtain ⟨fact, -, h⟩ := h
    cases hinsert : session.store.insert (.text fact.type) (.record fact.data) with
    | mk next result =>
    simp only [insert, change, hinsert] at h
    cases result with
    | error fault => cases h
    | ok id =>
      obtain ⟨_, hfollows, hlisteners', hdepth', -⟩ := Store.insert_eq_ok hinsert hlisteners hdepth
      have hlater := ih h (hlisteners'.trans hlisteners) (hdepth'.trans hdepth)
      simp only [hfollows.2.1] at hlater
      exact List.Subset.trans (List.subset_append_left _ _) hlater

theorem load_withRules {session last : Session} {facts : List InitialFact}
    (h : session.load facts = .ok last) (hlisteners : session.store.listeners = [Network.listener])
    (hdepth : session.store.depth = 0) (htable : session.store.table.WellFormed)
    {net : Network} (hfaithful : net.Faithful) (hruleSet : net.ruleSet = ruleSet')
    (hknown : net.working.facts.Perm session.store.table.live)
    (hpredicates : SharesPredicates ruleSet'.rules)
    (hregular : ∀ fact ∈ last.store.table.live, fact.Regular ruleSet'.rules) :
    ∃ net', (session.withRules ruleSet' net).load facts = .ok (last.withRules ruleSet' net') := by
  induction facts generalizing session net with
  | nil =>
    cases h
    exact ⟨net, rfl⟩
  | cons item facts ih =>
    unfold load at h ⊢
    simp only [doBind_eq_ok] at h ⊢
    obtain ⟨input, hinput, h⟩ := h
    cases hinsert : session.store.insert (.text input.type) (.record input.data) with
    | mk next result =>
    simp only [insert, change, hinsert] at h
    cases result with
    | error fault => cases h
    | ok id =>
      obtain ⟨fact, hfollows, hlisteners', hdepth', hwhere⟩ :=
        Store.insert_eq_ok hinsert hlisteners hdepth
      obtain ⟨hadmissible, -, hlive⟩ := hfollows.change htable
      have hadmissible' := Change.admissible_perm hknown.symm hadmissible
      -- The fact that is loaded now is live at the end, where all facts are regular.
      have hnew : fact ∈ last.store.table.live := by
        apply live_of_load h (hlisteners'.trans hlisteners) (hdepth'.trans hdepth)
        simp [hfollows.2.1]
      have hbrings : ∀ other ∈ (Change.inserted fact).brings, other.Regular net.ruleSet.rules := by
        intro other hother
        rw [hruleSet, ← Option.some.inj hother]
        exact hregular fact hnew
      obtain ⟨hok, -⟩ := Network.finishes_onChange hfaithful hadmissible' (by simp [Change.takes]) hbrings
      obtain ⟨hfaithful', hruleSet', hfacts⟩ := Network.faithful_onChange hfaithful
        (hruleSet ▸ hpredicates) hadmissible' (by simp [Change.takes]) hbrings
      have hknown' := (Change.applied_perm hknown (.inserted fact)).trans hlive
      rw [← hfacts] at hknown'
      obtain ⟨net', hrest⟩ := ih h (hlisteners'.trans hlisteners) (hdepth'.trans hdepth)
        (hfollows.wellFormed htable) hfaithful' (hruleSet'.trans hruleSet) hknown'
      refine ⟨net', input, hinput, ?_⟩
      simp only [withRules, insert, change, hwhere net hok]
      exact hrest

include hwellFormed

theorem ofRuleSet_withRules {session : Session} (h : ofRuleSet options journal ruleSet = .ok session)
    (htypes : ruleSet'.factTypes = ruleSet.factTypes) (journal' : List LogEntry) :
    ∃ net, ofRuleSet options journal' ruleSet' = .ok (session.withRules ruleSet' net) := by
  obtain ⟨settings, hsettings, hlimit, -, rfl⟩ := ofRuleSet_eq_ok_iff.mp h
  obtain ⟨hstart, -⟩ := Network.start_settled hwellFormed
  refine ⟨(initial options settings journal' ruleSet').network,
    ofRuleSet_eq_ok_iff.mpr ⟨settings, hsettings, hlimit, hstart, ?_⟩⟩
  unfold initial
  rw [htypes]
  rfl

theorem createFrom_withRules {session : Session} {facts : List InitialFact}
    (h : createFrom options journal ruleSet facts = .ok session)
    (htypes : ruleSet'.factTypes = ruleSet.factTypes) (hpredicates : SharesPredicates ruleSet'.rules)
    (hregular : ∀ fact ∈ session.store.table.live, fact.Regular ruleSet'.rules)
    (journal' : List LogEntry) :
    ∃ net, createFrom options journal' ruleSet' facts = .ok (session.withRules ruleSet' net) := by
  unfold createFrom at h ⊢
  simp only [doBind_eq_ok] at h ⊢
  obtain ⟨empty, hempty, loaded, hloaded, heq⟩ := h
  rw [← Except.ok.inj heq] at hregular ⊢
  obtain ⟨-, hstore⟩ := ofRuleSet_eq_ok hempty
  obtain ⟨net, hother⟩ := ofRuleSet_withRules hwellFormed hempty htypes journal'
  obtain ⟨hfaithful, hruleSet, hfacts⟩ := faithful_ofRuleSet hwellFormed hother
  have hlive : empty.store.table.live = [] := by
    rw [hstore]
  obtain ⟨net', hload⟩ := load_withRules hloaded (by rw [hstore]) (by rw [hstore])
    (by rw [hstore]; exact ⟨.nil, by simp⟩) hfaithful hruleSet (by rw [hfacts, hlive]) hpredicates hregular
  exact ⟨_, _, hother, _, hload, rfl⟩

theorem run_withRules {session : Session} {facts : List InitialFact}
    (h : createFrom options journal ruleSet facts = .ok session) (hbudget : session.timeBudget = none)
    (htypes : ruleSet'.factTypes = ruleSet.factTypes) (hpredicates : SharesPredicates ruleSet'.rules)
    (hregular : ∀ change ∈ (((Naive.ofSession session).withRules ruleSet'.rules).run
      session.allowance).1.store.world, ∀ fact ∈ change.brings, fact.Regular ruleSet'.rules)
    (journal' : List LogEntry) :
    ∃ session', createFrom options journal' ruleSet' facts = .ok session'
      ∧ session'.run.2.map RunResult.outcome
        = (((Naive.ofSession session).withRules ruleSet'.rules).run session.allowance).2
      ∧ session'.run.1.trace
        = (((Naive.ofSession session).withRules ruleSet'.rules).run session.allowance).1.trace
      ∧ session'.run.1.cycle
        = (((Naive.ofSession session).withRules ruleSet'.rules).run session.allowance).1.cycle
      ∧ session'.run.1.store.table
        = (((Naive.ofSession session).withRules ruleSet'.rules).run session.allowance).1.store.table := by
  have hgrown := Naive.world_prefix_run ((Naive.ofSession session).withRules ruleSet'.rules) rfl
    session.allowance
  have hloaded : ∀ fact ∈ session.store.table.live, fact.Regular ruleSet'.rules :=
    fun fact hfact => hregular _ (hgrown.subset (List.mem_map_of_mem hfact)) fact rfl
  obtain ⟨net, hcreate⟩ :=
    createFrom_withRules hwellFormed h htypes hpredicates hloaded journal'
  obtain ⟨-, -, hrun⟩ := run_createFrom hwellFormed hcreate hbudget hpredicates hregular
  exact ⟨_, hcreate, hrun⟩

end Exchange
end Session
end ForwardChaining
