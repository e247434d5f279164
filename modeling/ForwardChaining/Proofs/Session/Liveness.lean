import ForwardChaining.Proofs.Network.Equivalence
import ForwardChaining.Proofs.Session.Refraction

/-!
This module contains that what the network holds binds live facts, as they are, which pass the patterns in
their places, also after changes that could not be followed to their end.
-/

namespace ForwardChaining

namespace Condition

/-- The filters of the patterns among some conditions. -/
def patterns (conditions : List Condition) : List FactFilter :=
  conditions.filterMap fun
    | .pattern filter _ => some filter
    | _ => none

theorem patterns_cons (condition : Condition) (conditions : List Condition) :
    patterns (condition :: conditions) = patterns [condition] ++ patterns conditions := by
  cases condition <;> rfl

end Condition

/-- A token binds distinct facts of some, and each passes the pattern in its place. -/
structure Supports (known : List Fact) (rules : List Rule) (filters : List FactFilter) (token : Token)
    (facts : List Fact) : Prop where
  distinct : token.Nodup
  bound : List.Forall₂ (fun id fact => fact ∈ known ∧ fact.id = id) token facts
  passing : List.Forall₂ (fun filter fact => fact.Apart rules → filter.accepts fact = .ok true)
    filters facts

theorem supports_nil (known : List Fact) (rules : List Rule) :
    ∀ token ∈ [[]], ∃ facts, Supports known rules [] token facts := by
  intro token htoken
  obtain rfl := List.mem_singleton.mp htoken
  exact ⟨[], .nil, .nil, .nil⟩

theorem Supports.mono {known known' : List Fact} (hknown : known ⊆ known') {rules : List Rule}
    {filters : List FactFilter} {token : Token} {facts : List Fact}
    (h : Supports known rules filters token facts) : Supports known' rules filters token facts :=
  ⟨h.distinct, h.bound.imp fun _ _ hfact => ⟨hknown hfact.1, hfact.2⟩, h.passing⟩

namespace Network

section Supports

variable {net : Network} (h : net.Sound) {rules : List Rule} (hpredicates : SharesPredicates rules)
  (hpatterns : ∀ alpha ∈ net.working.alphas, IsPatternOf rules alpha.filter)

include h hpredicates hpatterns

theorem supports_child {filters : List FactFilter} {condition : Condition} {node : Node}
    (himplements : node.Implements net.working.alphas condition) (hsafe : condition.Safe)
    (hof : ∃ rule ∈ rules, condition ∈ rule.conditions) {token child : Token} {facts : List Fact}
    (hsupports : Supports net.working.facts rules filters token facts)
    (hchild : node.Child net.working token child) :
    ∃ facts', Supports net.working.facts rules (filters ++ Condition.patterns [condition])
      child facts' := by
  cases himplements using Node.Implements.cases with
  | @pattern filter var alpha memory hmemory hidentity =>
    obtain ⟨id, hmem, hnew, rfl⟩ := hchild
    obtain ⟨found, hfound, fact, hfact, rfl, hadmits⟩ :=
      (WorkingMemory.mem_members_iff h.alphas alpha id).mp hmem
    rw [List.getElem?_map, hmemory, Option.map_some, Option.some.injEq] at hfound
    subst hfound
    refine ⟨facts ++ [fact], ?_, List.rel_append hsupports.bound (.cons ⟨hfact, rfl⟩ .nil),
      List.rel_append hsupports.passing (.cons ?_ .nil)⟩
    . rw [List.nodup_append]
      refine ⟨hsupports.distinct, List.nodup_singleton _, ?_⟩
      rintro other hother _ hid rfl
      rw [List.mem_singleton] at hid
      exact hnew (hid ▸ hother)
    . intro hapart
      obtain ⟨rule, hrule, hcondition⟩ := hof
      rw [FactFilter.accepts_eq (hsafe filter rfl), ← hapart.shares hpredicates filter
        ⟨rule, hrule, var, hcondition⟩ memory.filter
        (hpatterns memory (List.mem_of_getElem? hmemory)) hidentity, hadmits]
  | join | negation | aggregate =>
    obtain rfl : child = token := (Node.child_iff rfl).mp hchild
    exact ⟨facts, hsupports.distinct, hsupports.bound,
      by rw [Condition.patterns]; simpa using hsupports.passing⟩

theorem supports_final {filters : List FactFilter} {conditions : List Condition} {stages : List Stage}
    (himplements : List.Forall₂ (fun c s => s.node.Implements net.working.alphas c) conditions stages)
    (hsafe : ∀ condition ∈ conditions, condition.Safe)
    (hof : ∀ condition ∈ conditions, ∃ rule ∈ rules, condition ∈ rule.conditions)
    {parents : List Token} (hground : Stage.AllGrounded net.working parents stages)
    (hparents : ∀ token ∈ parents, ∃ facts,
      Supports net.working.facts rules filters token facts) :
    ∀ token ∈ Stage.final parents stages, ∃ facts,
      Supports net.working.facts rules (filters ++ Condition.patterns conditions) token
        facts := by
  induction himplements generalizing filters parents with
  | nil => simpa [Condition.patterns, Stage.final] using hparents
  | @cons condition stage conditions stages hfirst _ ih =>
    rw [List.forall_mem_cons] at hsafe hof
    rw [Condition.patterns_cons, ← List.append_assoc]
    apply ih hsafe.2 hof.2 hground.2
    intro child hchild
    obtain ⟨token, htoken, hstep⟩ := hground.1.closed child hchild
    obtain ⟨facts, hfacts⟩ := hparents token htoken
    exact supports_child h hpredicates hpatterns hfirst hsafe.1 hof.1 hfacts hstep

theorem supports_stage {memory : RuleMemory} (hmemory : memory ∈ net.memories)
    (hrules : net.ruleSet.rules = rules) {i : Nat} {stage : Stage}
    (hstage : memory.stages[i]? = some stage) : ∀ token ∈ stage.tokens, ∃ facts,
      Supports net.working.facts rules (Condition.patterns (memory.rule.conditions.take (i + 1))) token
        facts := by
  have hfound := memory?_of_mem h hmemory
  have hrule : memory.rule ∈ net.ruleSet.rules := by
    rw [← h.rules]
    exact List.mem_map.mpr ⟨memory, hmemory, rfl⟩
  rw [← Stage.final_take_succ hstage [[]]]
  exact supports_final h hpredicates hpatterns (List.forall₂_take _ (h.implements _ memory hfound))
    (fun condition hcondition => h.safe _ hrule condition (List.mem_of_mem_take hcondition))
    (fun condition hcondition => ⟨memory.rule, hrules ▸ hrule, List.mem_of_mem_take hcondition⟩)
    ((h.grounded _ memory hfound).take (i + 1)) (supports_nil _ rules)

theorem supports_complete {name : String} {rule : Rule} {tokens : List Token}
    (hrules : net.ruleSet.rules = rules) (hmatched : net.matched name = some (rule, tokens)) :
    ∀ token ∈ tokens, ∃ facts,
      Supports net.working.facts rules (Condition.patterns rule.conditions) token facts := by
  have hrule := h.rule_of_matched hmatched
  obtain ⟨memory, hmemory, rfl, rfl⟩ := exists_of_matched hmatched
  rw [Stage.complete_eq_final]
  exact supports_final h hpredicates hpatterns (h.implements _ memory hmemory) (h.safe _ hrule)
    (fun condition hcondition => ⟨memory.rule, hrules ▸ hrule, hcondition⟩)
    (h.grounded _ memory hmemory) (supports_nil _ rules)

end Supports

end Network

/-- What a pending activation says of the facts that it binds is true. -/
structure Activation.Current (a : Activation) (rules : List Rule) (live : List Fact) : Prop where
  rule : a.rule ∈ rules
  facts : ∃ facts, Supports live rules (Condition.patterns a.rule.conditions) a.token facts
    ∧ a.Binds a.rule a.token facts

namespace Session

section Live

variable {spec : RuleSetSpec} {ruleSet : RuleSet} (hcompile : spec.compile = .ok ruleSet)
  (hpredicates : SharesPredicates ruleSet.rules) {fired : List Activation} {session : Session}
  (h : History ruleSet fired session)

include hcompile hpredicates h

end Live

theorem sharesPredicates_closing : SharesPredicates closingRules := by
  have hnone : ∀ filter, IsPatternOf closingRules filter → filter.predicate = none := by
    rintro filter ⟨rule, hrule, var, hmem⟩
    simp only [closingRules, List.mem_cons, List.not_mem_nil, or_false] at hrule
    rcases hrule with rfl | rfl <;>
      simp only [List.mem_singleton, Condition.pattern.injEq] at hmem <;> rw [hmem.1]
  intro filter hfilter other hother _
  rw [hnone filter hfilter, hnone other hother]

end Session
end ForwardChaining
