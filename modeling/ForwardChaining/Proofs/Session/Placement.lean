import ForwardChaining.Proofs.Rule.Placement
import ForwardChaining.Proofs.Session.Exchange

/-!
This module contains what the order of declaration decides in a run: nothing but which of two rules of one
priority comes first. So rules of different priorities may be declared in any order.
-/

namespace ForwardChaining

namespace Activation

/-- The activation of the rule at the place that it has among others. -/
def among (host : List Rule) (a : Activation) : Activation :=
  { a with rule := a.rule.among host }

/-- Where priorities are the same, so is the order of declaration; otherwise it does not matter. -/
theorem compare_among {host extras rules : List Rule} (h : Rule.Hosted host extras rules)
    {a b : Activation} (ha : a.rule ∈ rules) (hb : b.rule ∈ rules) :
    (a.among host).compare (b.among host) = a.compare b := by
  by_cases hpriority : b.rule.priority = a.rule.priority
  . have horder := h.keeps _ ha _ hb hpriority
    simp only [compare, among] at horder ⊢
    rw [horder]
    rfl
  . have hdecided : Ord.compare b.rule.priority a.rule.priority ≠ .eq :=
      fun heq => hpriority (Std.compare_eq_iff_eq.mp heq)
    have hthen : ∀ x y : Ordering, (Ord.compare b.rule.priority a.rule.priority).then x
        = (Ord.compare b.rule.priority a.rule.priority).then y := by
      intro x y
      cases heq : Ord.compare b.rule.priority a.rule.priority with
      | lt | gt => rfl
      | eq => exact absurd heq hdecided
    exact hthen _ _

end Activation

namespace Naive

/-! ### What matches -/

theorem activationOf_among (host : List Rule) (facts : List Fact) (rule : Rule) (token : Token) :
    activationOf facts (rule.among host) token
      = (activationOf facts rule token).map (·.among host) := by
  unfold activationOf
  cases token.mapM ({ facts } : WorkingMemory).find <;> rfl

theorem activationsOf_among (host : List Rule) (facts : List Fact) (rule : Rule) :
    activationsOf facts (rule.among host)
      = (activationsOf facts rule).map fun as => as.map (·.among host) := by
  have htokens : (rule.among host).tokens facts = rule.tokens facts := rfl
  unfold activationsOf
  rw [htokens]
  cases (rule.tokens facts).outcome with
  | error fault => rfl
  | ok tokens =>
    change tokens.mapM (activationOf facts (rule.among host))
      = (tokens.mapM (activationOf facts rule)).map _
    induction tokens with
    | nil => rfl
    | cons token tokens ih =>
      rw [List.mapM_cons, List.mapM_cons, ih, activationOf_among]
      cases activationOf facts rule token with
      | error fault => rfl
      | ok a => cases tokens.mapM (activationOf facts rule) <;> rfl

theorem activationsOf_eq_ok {facts : List Fact} {rule : Rule} {as : List Activation}
    (h : activationsOf facts rule = .ok as) {a : Activation} (ha : a ∈ as) :
    activationOf facts rule a.token = .ok a ∧ a.rule = rule := by
  obtain ⟨tokens, -, has⟩ := doBind_eq_ok.mp h
  obtain ⟨token, -, htoken⟩ := (mem_of_mapM has a).mp ha
  have hof := htoken
  obtain ⟨bound, -, heq⟩ := doBind_eq_ok.mp hof
  rw [← Except.ok.inj heq] at htoken ⊢
  exact ⟨htoken, rfl⟩

variable {state : Naive}

theorem candidates_of_rules
    (h : ∀ rule ∈ state.rules, ∃ as, activationsOf state.store.table.live rule = .ok as) :
    ∃ found, state.candidates = .ok found := by
  obtain ⟨found, hfound, -⟩ := mapM_ok h
  exact ⟨_, doBind_eq_ok.mpr ⟨found, hfound, rfl⟩⟩

theorem mem_candidates {found : List Activation} (h : state.candidates = .ok found) :
    (∀ rule ∈ state.rules, ∃ as, activationsOf state.store.table.live rule = .ok as)
      ∧ ∀ a, a ∈ found ↔ (∃ rule ∈ state.rules, ∃ as,
        activationsOf state.store.table.live rule = .ok as ∧ a ∈ as) ∧ a.refraction ∉ state.fired := by
  obtain ⟨all, hall, heq⟩ := doBind_eq_ok.mp h
  refine ⟨forall_of_mapM hall, ?_⟩
  intro a
  rw [← Except.ok.inj heq, List.mem_filter, List.mem_flatten]
  simp only [mem_of_mapM hall, Bool.not_eq_true', List.contains_eq_mem, decide_eq_false_iff_not]
  refine and_congr_left fun _ => ⟨?_, ?_⟩
  . rintro ⟨as, ⟨rule, hrule, has⟩, ha⟩
    exact ⟨rule, hrule, as, has, ha⟩
  . rintro ⟨rule, hrule, as, has, ha⟩
    exact ⟨as, ⟨rule, hrule, has⟩, ha⟩

theorem rule_of_candidates {found : List Activation} (h : state.candidates = .ok found) {a : Activation}
    (ha : a ∈ found) : a.rule ∈ state.rules := by
  obtain ⟨⟨rule, hrule, as, has, hmem⟩, -⟩ := ((mem_candidates h).2 a).mp ha
  rw [(activationsOf_eq_ok has hmem).2]
  exact hrule

theorem eq_of_candidates {found : List Activation} (h : state.candidates = .ok found) {a b : Activation}
    (ha : a ∈ found) (hb : b ∈ found) (hrule : a.rule = b.rule) (htoken : a.token = b.token) : a = b := by
  obtain ⟨⟨rule, -, as, has, hmem⟩, -⟩ := ((mem_candidates h).2 a).mp ha
  obtain ⟨⟨rule', -, bs, hbs, hmem'⟩, -⟩ := ((mem_candidates h).2 b).mp hb
  obtain ⟨hof, rfl⟩ := activationsOf_eq_ok has hmem
  obtain ⟨hof', rfl⟩ := activationsOf_eq_ok hbs hmem'
  rw [hrule, htoken, hof'] at hof
  exact (Except.ok.inj hof).symm

/-! ### What fires next -/

/--
The interpreter of the host knows the same facts as the one of the rules, and of what these rules match it
has fired the same.
-/
structure Hosts (extras : List Rule) (host state : Naive) : Prop where
  hosted : Rule.Hosted host.rules extras state.rules
  live : state.store.table.live = host.store.table.live
  fired : ∀ key, (∀ extra ∈ extras, key.rule ≠ extra.name) → (key ∈ host.fired ↔ key ∈ state.fired)

section Hosts

variable {extras : List Rule} {host : Naive} (h : Hosts extras host state)

include h

theorem Hosts.fired_iff {a : Activation} (ha : a.rule ∈ state.rules) :
    a.refraction ∈ host.fired ↔ a.refraction ∈ state.fired :=
  h.fired _ fun _ hextra => h.hosted.fresh hextra ha

theorem Hosts.candidates {found : List Activation} (hfound : host.candidates = .ok found) :
    ∃ found', state.candidates = .ok found' ∧ (∀ a ∈ found', a.among host.rules ∈ found)
      ∧ ∀ b ∈ found, (∃ extra ∈ extras, b.rule = extra.among host.rules)
        ∨ ∃ a ∈ found', b = a.among host.rules := by
  obtain ⟨hmatched, hmem⟩ := mem_candidates hfound
  have hrules : ∀ rule ∈ state.rules, ∃ as, activationsOf state.store.table.live rule = .ok as := by
    intro rule hrule
    obtain ⟨as, has⟩ := hmatched _ (h.hosted.among_mem hrule)
    rw [activationsOf_among, map_eq_ok] at has
    obtain ⟨as', has', -⟩ := has
    rw [h.live]
    exact ⟨as', has'⟩
  obtain ⟨found', hfound'⟩ := candidates_of_rules hrules
  obtain ⟨-, hmem'⟩ := mem_candidates hfound'
  refine ⟨found', hfound', ?_, ?_⟩
  . intro a ha
    have hrule := rule_of_candidates hfound' ha
    obtain ⟨⟨rule, hof, as, has, hmatch⟩, hnew⟩ := (hmem' a).mp ha
    rw [h.live] at has
    refine (hmem _).mpr ⟨⟨_, h.hosted.among_mem hof, as.map (·.among host.rules), ?_,
      List.mem_map_of_mem hmatch⟩, fun hfired => hnew ((h.fired_iff hrule).mp hfired)⟩
    rw [activationsOf_among, has]
    rfl
  . intro b hb
    obtain ⟨⟨rule, hof, bs, hbs, hmatch⟩, hnew⟩ := (hmem b).mp hb
    rcases h.hosted.mem_host.mp hof with ⟨extra, hextra, rfl⟩ | ⟨other, hother, rfl⟩
    . exact .inl ⟨extra, hextra, (activationsOf_eq_ok hbs hmatch).2⟩
    . rw [activationsOf_among, map_eq_ok] at hbs
      obtain ⟨as, has, rfl⟩ := hbs
      obtain ⟨a, ha, rfl⟩ := List.mem_map.mp hmatch
      have hrule : a.rule ∈ state.rules := by
        rw [(activationsOf_eq_ok has ha).2]
        exact hother
      rw [← h.live] at has
      exact .inr ⟨a, (hmem' a).mpr ⟨⟨other, hother, as, has, ha⟩,
        fun hfired => hnew ((h.fired_iff hrule).mpr hfired)⟩, rfl⟩

theorem Hosts.foremost {b : Activation} {bs : List Activation} (hfound : host.candidates = .ok (b :: bs)) :
    (∃ extra ∈ extras, (b.foremost bs).rule = extra.among host.rules)
      ∨ ∃ a as, state.candidates = .ok (a :: as)
        ∧ (a.foremost as).rule ∈ state.rules ∧ b.foremost bs = (a.foremost as).among host.rules := by
  obtain ⟨found', hfound', hinto, hfrom⟩ := h.candidates hfound
  obtain ⟨hmem, hfirst⟩ := Activation.foremost_spec b bs
  rcases hfrom _ hmem with hextra | ⟨best, hbest, heq⟩
  . exact .inl hextra
  right
  obtain ⟨a, as, rfl⟩ := List.exists_cons_of_ne_nil (List.ne_nil_of_mem hbest)
  have hrule := rule_of_candidates hfound' hbest
  have hforemost : a.foremost as = best := by
    apply Activation.foremost_eq hbest
    . intro c hc
      have hleast := hfirst _ (hinto c hc)
      rwa [heq, Activation.compare_among h.hosted hrule (rule_of_candidates hfound' hc)] at hleast
    . intro c hc hplace
      obtain ⟨horder, htoken⟩ := Activation.place_of_compare hplace
      have hsame := Network.rule_of_order h.hosted.orders hrule (rule_of_candidates hfound' hc) horder
      exact (eq_of_candidates hfound' hbest hc hsame htoken).symm
  exact ⟨a, as, hfound', hforemost ▸ hrule, hforemost ▸ heq⟩

end Hosts

/-! ### Runs -/

theorem frame_fire {state last : Naive} {a : Activation} {result : Except Fault TraceEntry}
    (h : state.fire a = (last, result)) :
    last = { state with store := last.store, serial := last.serial } := by
  obtain rfl := congrArg Prod.fst h
  unfold fire
  cases state.firingOf a <;> rfl

theorem fire_withRules (state : Naive) (rules : List Rule) (a : Activation) :
    (state.withRules rules).fire a = ((state.fire a).1.withRules rules, (state.fire a).2) := by
  have hfiring : (state.withRules rules).firingOf a = state.firingOf a := rfl
  unfold fire
  rw [hfiring]
  cases state.firingOf a <;> rfl

theorem fire_among (state : Naive) (host : List Rule) (a : Activation) :
    state.fire (a.among host) = state.fire a := by
  have hfiring : state.firingOf (a.among host) = state.firingOf a := rfl
  unfold fire
  rw [hfiring]
  cases state.firingOf a <;> rfl

section Permuted

variable {rules : List Rule}

theorem hosts_withRules {state : Naive} (h : Rule.Hosted state.rules [] rules) :
    Hosts [] state (state.withRules rules) :=
  ⟨h, rfl, fun _ _ => .rfl⟩

theorem step_withRules {state : Naive} (h : Rule.Hosted state.rules [] rules) {a : Activation}
    {as : List Activation} (hfound : state.candidates = .ok (a :: as)) :
    ∃ b bs, (state.withRules rules).candidates = .ok (b :: bs)
      ∧ ((state.withRules rules).begin (b.foremost bs)).fire (b.foremost bs)
        = (((state.begin (a.foremost as)).fire (a.foremost as)).1.withRules rules,
          ((state.begin (a.foremost as)).fire (a.foremost as)).2) := by
  rcases (hosts_withRules h).foremost hfound with ⟨_, hextra, -⟩ | ⟨b, bs, hfound', -, hforemost⟩
  . cases hextra
  . refine ⟨b, bs, hfound', ?_⟩
    rw [hforemost, fire_among]
    exact fire_withRules (state.begin (b.foremost bs)) rules (b.foremost bs)

theorem loop_withRules {left : Nat} {state : Naive} (hproceeds : Proceeds left state)
    (h : Rule.Hosted state.rules [] rules) :
    (state.withRules rules).loop left = ((state.loop left).1.withRules rules, (state.loop left).2) := by
  induction hproceeds with
  | idle hfound =>
    obtain ⟨found', hfound', hinto, -⟩ := (hosts_withRules h).candidates hfound
    have hnone : found' = [] := List.eq_nil_iff_forall_not_mem.mpr fun a ha => by cases hinto a ha
    rw [loop_idle hfound, loop_idle (hnone ▸ hfound')]
  | halted hfound =>
    obtain ⟨b, bs, hfound', -⟩ := step_withRules h hfound
    rw [loop_halted hfound, loop_halted hfound']
  | escaped hfound hfire =>
    obtain ⟨b, bs, hfound', hfire'⟩ := step_withRules h hfound
    rw [hfire] at hfire'
    rw [loop_escaped hfound hfire, loop_escaped hfound' hfire']
  | @fired left state last a as entry hfound hfire _ ih =>
    obtain ⟨b, bs, hfound', hfire'⟩ := step_withRules h hfound
    rw [hfire] at hfire'
    rw [loop_fired hfound hfire, loop_fired hfound' hfire']
    apply ih
    rw [frame_fire hfire]
    exact h

theorem run_withRules {limit : Nat} {state : Naive} (hproceeds : Proceeds limit state)
    (h : Rule.Hosted state.rules [] rules) :
    (state.withRules rules).run limit = ((state.run limit).1.withRules rules, (state.run limit).2) := by
  unfold run
  rw [loop_withRules hproceeds h]
  rfl

end Permuted

end Naive

namespace Session

section Permuted

variable {spec : RuleSetSpec} {rules : List RuleSpec} (hperm : rules.Perm spec.rules)
  (hpriorities : (spec.rules.map (·.priority)).Nodup) {ruleSet : RuleSet}
  (hcompile : spec.compile = .ok ruleSet)

include hperm hpriorities hcompile

theorem hosted_permuted : ∃ ruleSet', ({ spec with rules } : RuleSetSpec).compile = .ok ruleSet'
    ∧ Rule.Hosted ruleSet.rules [] ruleSet'.rules := by
  have hnames := (succeeds_compile.mp ⟨ruleSet, hcompile⟩).names
  obtain ⟨ruleSet', hcompile'⟩ := succeeds_compile.mpr ((succeeds_compile.mp ⟨ruleSet, hcompile⟩).of_subset
    hperm.subset ((hperm.map (·.name)).nodup_iff.mpr hnames))
  refine ⟨ruleSet', hcompile', hosted_of_compile hcompile hcompile' rfl [] hperm.symm ?_⟩
  have hdistinct : (ruleSet'.rules.map (·.priority)).Nodup := by
    rw [priorities_of_compile hcompile']
    exact (hperm.map (·.priority)).nodup_iff.mpr hpriorities
  intro a ha b hb hpriority
  rw [List.inj_on_of_nodup_map hdistinct hb ha hpriority, Std.ReflOrd.compare_self,
    Std.ReflOrd.compare_self]

end Permuted

end Session
end ForwardChaining
