import ForwardChaining.Proofs.Rule.Acceptance
import ForwardChaining.Proofs.Store.Table

/-!
This module contains what the compiler knows of the facts that a rule binds: the types of the patterns of its
variables. The steps of a compiled action name such variables only, and fields that these types declare.
-/

namespace ForwardChaining

/-- The variable that the condition binds, with the type of its fact. -/
def Condition.binding? : Condition → Option (String × String)
  | .pattern filter var => some (var, filter.type)
  | _ => none

theorem Condition.map_binding? (condition : Condition) :
    condition.binding?.map (·.1) = condition.var? := by
  cases condition <;> rfl

/-- The variables of a rule, with the types of their facts. -/
def Rule.bound (rule : Rule) : Bound :=
  rule.conditions.filterMap (·.binding?)

theorem Rule.map_bound (rule : Rule) : rule.bound.map (·.1) = rule.vars := by
  simp only [bound, vars, List.map_filterMap, Condition.map_binding?]

/-- What a step of an action names is there: the variable, and the fields of its type. -/
def ActionStep.Scoped (types : Declarations) (bound : Bound) : ActionStep → Prop
  | .set var field _ | .append var field _ _ =>
    ∃ type, (var, type) ∈ bound ∧ types.hasField type field = true
  | .insert type data => ∃ declared, types.find type = some declared
    ∧ ∀ entry ∈ data, declared.accepts (.text entry.1) = true
  | .retract var => ∃ type, (var, type) ∈ bound
  | .explain _ | .script _ => True

namespace Declarations

theorem compile_eq_ok {specs : List FactTypeSpec} {types compiled : Declarations}
    (h : compile specs types = .ok compiled) : compiled = types ++ specs.map ofSpec := by
  induction specs generalizing types with
  | nil =>
    cases h
    simp
  | cons spec specs ih =>
    rw [compile] at h
    split at h
    . simp [Compiled.defect, Checked.fail, Checked.map] at h
    . rw [ih h]
      simp [ofSpec]

theorem find_eq_some {types : Declarations} (h : (types.map (·.name)).Nodup) {type : String}
    {declared : FactType} :
    types.find type = some declared ↔ declared ∈ types ∧ declared.name = type := by
  constructor
  . intro hfind
    exact ⟨List.mem_of_find?_eq_some hfind, by simpa using List.find?_some hfind⟩
  . rintro ⟨hmem, rfl⟩
    obtain ⟨other, hother⟩ := Option.isSome_iff_exists.mp
      (find_isSome.mpr (List.mem_map.mpr ⟨declared, hmem, rfl⟩))
    have hname : other.name = declared.name := by simpa using List.find?_some hother
    rw [hother, List.inj_on_of_nodup_map h (List.mem_of_find?_eq_some hother) hmem hname]

theorem declaration?_eq {types : Declarations} (h : (types.map (·.name)).Nodup) (type : String) :
    FactTable.declaration? types (.text type) = types.find type := by
  have hreverse : ((types.reverse).map (·.name)).Nodup := by
    rwa [List.map_reverse, List.nodup_reverse]
  change find types.reverse type = types.find type
  ext declared
  rw [find_eq_some hreverse, find_eq_some h, List.mem_reverse]

end Declarations

section

variable {types : Declarations} {bound : Bound} {place : String}

theorem binding?_compileCondition {spec : ConditionSpec} {condition : Condition}
    (h : compileCondition types bound place spec = .ok condition) :
    condition.binding? = spec.binding? := by
  cases spec with
  | pattern spec =>
    simp only [compileCondition, compilePattern, Checked.andThen_eq_ok] at h
    obtain ⟨-, -, h⟩ := h
    split at h
    . simp at h
    . obtain ⟨tests, -, rfl⟩ := Checked.map_eq_ok.mp h
      rfl
  | join spec =>
    have hnone := (compiledTo_join h).2
    rwa [← Condition.map_binding?, Option.map_eq_none_iff] at hnone
  | negation spec =>
    have hnone := (compiledTo_negation h).2
    rwa [← Condition.map_binding?, Option.map_eq_none_iff] at hnone
  | aggregate spec =>
    have hnone := (compiledTo_aggregate h).2
    rwa [← Condition.map_binding?, Option.map_eq_none_iff] at hnone

theorem bindings_compileConditions {rule : String} {position : Nat} {specs : List ConditionSpec}
    {conditions : List Condition}
    (h : (compileConditions types rule position bound specs).1 = .ok conditions) :
    conditions.filterMap (·.binding?) = ConditionSpec.bindings specs := by
  induction specs generalizing position bound conditions with
  | nil =>
    cases h
    rfl
  | cons spec specs ih =>
    simp only [compileConditions, Checked.apply_eq_ok, Checked.map_eq_ok] at h
    obtain ⟨-, rest, ⟨condition, hcondition, rfl⟩, hrest, rfl⟩ := h
    rw [filterMap_cons_append, ConditionSpec.bindings_cons, ← ih hrest,
      binding?_compileCondition hcondition]

theorem scoped_compileAction (hbound : (bound.map (·.1)).Nodup) {spec : ActionSpec}
    {step : ActionStep} (h : compileAction types bound place spec = .ok step) :
    step.Scoped types bound := by
  unfold compileAction at h
  split at h <;> dsimp only at h
  . split at h
    . simp at h
    . cases h
      trivial
  . split at h
    . simp at h
    . simp only [Checked.andThen_eq_ok] at h
      obtain ⟨declared, hdeclared, h⟩ := h
      split at h
      . next hnone =>
        cases h
        refine ⟨declared, Declarations.require_eq_ok.mp hdeclared, ?_⟩
        simpa using FactType.isEmpty_undeclared.mp hnone
      . simp at h
  . split at h
    . simp at h
    . next var type hfound =>
      obtain ⟨-, hentry⟩ := (Bound.target_eq_some hbound).mp hfound
      split at h
      . cases h
        exact ⟨type, hentry⟩
      . split at h
        . simp at h
        . obtain ⟨u, hfield, rfl⟩ := Checked.map_eq_ok.mp h
          have hpermits := Compiled.require_eq_ok.mp hfield
          split <;> exact ⟨type, hentry, hpermits⟩

theorem scoped_compileActions (hbound : (bound.map (·.1)).Nodup) {spec : RuleSpec}
    {steps : List ActionStep} (h : compileActions types bound spec = .ok steps) :
    ∀ step ∈ steps, step.Scoped types bound := by
  obtain ⟨declarative, hdeclarative, rfl⟩ := Checked.map_eq_ok.mp h
  have hscoped : ∀ step ∈ declarative, step.Scoped types bound := by
    intro step hstep
    obtain ⟨action, -, haction⟩ := Checked.exists_of_all_map hdeclarative hstep
    exact scoped_compileAction hbound haction
  split
  . rw [List.forall_mem_append, List.forall_mem_singleton]
    exact ⟨hscoped, trivial⟩
  . exact hscoped

end

/-- Each variable of the rule is bound once, and its action names only what is there. -/
structure Rule.Scoped (types : Declarations) (rule : Rule) : Prop where
  distinct : (rule.bound.map (·.1)).Nodup
  steps : ∀ step ∈ rule.action, step.Scoped types rule.bound

theorem scoped_compileRule {specs : List FactTypeSpec} (hspecs : (specs.map (·.name)).Nodup)
    {order : Int} {spec : RuleSpec} {rule : Rule}
    (h : compileRule (Declarations.ofSpecs specs) order spec = .ok rule) :
    rule.Scoped (Declarations.ofSpecs specs) := by
  simp only [compileRule, Checked.seq_eq_ok, Checked.functorMap_eq_ok] at h
  obtain ⟨-, steps, ⟨conditions, hconditions, rfl⟩, hsteps, rfl⟩ := h
  have hchained := (succeeds_compileConditions hspecs (by simp)).mp ⟨conditions, hconditions⟩
  obtain ⟨hbound, hdistinct⟩ := bound_compileConditions hspecs (by simp) hchained
  have hsame := bindings_compileConditions hconditions
  rw [hbound] at hsteps
  rw [List.nil_append, ← hsame] at hsteps hdistinct
  exact ⟨hdistinct, scoped_compileActions hdistinct hsteps⟩

theorem exists_of_compileRules {types : Declarations} {order : Nat} {seen : List String}
    {specs : List RuleSpec} {rules : List Rule} (h : compileRules types order seen specs = .ok rules)
    {rule : Rule} (hrule : rule ∈ rules) :
    ∃ order : Int, ∃ spec ∈ specs, compileRule types order spec = .ok rule := by
  induction specs generalizing order seen rules with
  | nil =>
    cases h
    cases hrule
  | cons spec specs ih =>
    simp only [compileRules, Checked.apply_eq_ok, Checked.map_eq_ok] at h
    obtain ⟨-, rest, ⟨first, hfirst, rfl⟩, hrest, rfl⟩ := h
    rcases List.mem_cons.mp hrule with rfl | hrule
    . split at hfirst
      . simp at hfirst
      . exact ⟨order, spec, by simp, hfirst⟩
    . obtain ⟨order, other, hother, hcompiled⟩ := ih hrest hrule
      exact ⟨order, other, by simp [hother], hcompiled⟩

theorem scoped_of_compile {spec : RuleSetSpec} {ruleSet : RuleSet} (h : spec.compile = .ok ruleSet) :
    (ruleSet.factTypes.map (·.name)).Nodup
      ∧ ∀ rule ∈ ruleSet.rules, rule.Scoped ruleSet.factTypes := by
  have hspecs := (succeeds_compile.mp ⟨ruleSet, h⟩).types
  obtain ⟨types, rules, htypes, hrules, rfl⟩ := compile_eq_ok.mp h
  obtain rfl : types = Declarations.ofSpecs spec.factTypes := by
    rw [Declarations.compile_eq_ok htypes, Declarations.ofSpecs_eq hspecs, List.nil_append]
  constructor
  . rw [Declarations.ofSpecs_eq hspecs, List.map_map]
    exact hspecs
  . intro rule hrule
    obtain ⟨order, spec, -, hspec⟩ := exists_of_compileRules hrules hrule
    exact scoped_compileRule hspecs hspec

end ForwardChaining
