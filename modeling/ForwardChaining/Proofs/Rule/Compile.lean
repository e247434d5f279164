import ForwardChaining.Proofs.Checked
import ForwardChaining.Proofs.Rule.Condition
import ForwardChaining.Rule.Compile

/-!
This module contains what the compiler guarantees: the rules have names of their own, they stand in the
order of their declaration under the index that belongs to them, their filters cannot fail, and every
condition reads only variables that are bound before it.
-/

namespace ForwardChaining

/-- What the rules of a network must be like: what compiled rules are. -/
structure RuleSet.WellFormed (ruleSet : RuleSet) : Prop where
  names : (ruleSet.rules.map (·.name)).Nodup
  orders : ruleSet.rules.Pairwise fun a b => a.order < b.order
  index : ruleSet.index = .build ruleSet.rules
  safe : ∀ rule ∈ ruleSet.rules, ∀ condition ∈ rule.conditions, condition.Safe
  scope : ∀ rule ∈ ruleSet.rules, Condition.Scoped [] rule.conditions

namespace Compiled

@[simp]
theorem defect_ne_ok {place message : String} {a : α} : defect place message ≠ .ok a :=
  Checked.fail_ne_ok

@[simp]
theorem require_eq_ok {holds : Bool} {place message : String} {u : Unit} :
    require holds place message = .ok u ↔ holds = true := by
  cases holds <;> simp [require]

end Compiled

theorem safe_testValue (field : String) (op : Operator) (value : Value) :
    FieldTest.Safe ⟨field, op, testValue op value⟩ := by
  rintro hop ⟨items, hitems⟩
  rcases hop with hop | hop <;> simp only at hop hitems <;> subst hop <;> cases value <;>
    simp [testValue] at hitems

theorem isSome_lookup {entries : List (String × α)} {name : String} :
    (entries.lookup name).isSome ↔ name ∈ entries.map (·.1) := by
  rw [List.lookup_isSome_iff, List.mem_map]
  constructor
  . rintro ⟨entry, hmem, heq⟩
    exact ⟨entry, hmem, (beq_iff_eq.mp heq).symm⟩
  . rintro ⟨entry, hmem, rfl⟩
    exact ⟨entry, hmem, by simp⟩

section Parts

variable {types : Declarations} {bound : Bound} {place : String}

theorem safe_compileTests {type : String} {checks : List CheckSpec} {tests : List FieldTest}
    (h : compileTests types place type checks = .ok tests) : ∀ test ∈ tests, test.Safe := by
  intro test htest
  obtain ⟨check, -, hcheck⟩ := Checked.exists_of_all_map h htest
  simp only [compileTest, Checked.andThen_eq_ok, Checked.map_eq_ok] at hcheck
  obtain ⟨op, -, -, -, rfl⟩ := hcheck
  exact safe_testValue _ _ _

theorem bound_of_compileRef {text : String} {ref : FieldRef}
    (h : compileRef types bound place text = .ok ref) : ref.var ∈ bound.map (·.1) := by
  unfold compileRef at h
  split at h
  . simp at h
  . next var field hcut =>
    split at h
    . simp at h
    . split at h
      . simp at h
      . next type hlookup =>
        obtain ⟨-, -, rfl⟩ := Checked.map_eq_ok.mp h
        exact isSome_lookup.mp (by simp [hlookup])

theorem bound_of_compileKeys {type : String} {correlations : List (String × String)}
    {keys : List KeyBinding} (h : compileKeys types bound place type correlations = .ok keys) :
    ∀ key ∈ keys, key.ref.var ∈ bound.map (·.1) := by
  intro key hkey
  obtain ⟨correlation, -, hof⟩ := Checked.exists_of_all_map h hkey
  simp only [Checked.andThen_eq_ok, Checked.map_eq_ok] at hof
  obtain ⟨ref, href, -, -, rfl⟩ := hof
  exact bound_of_compileRef href

theorem bound_of_compileSides {left right : Option String}
    {sides : Option FieldRef × Option FieldRef}
    (h : compileSides types bound place left right = .ok sides) (ref : FieldRef)
    (href : sides.1 = some ref ∨ sides.2 = some ref) : ref.var ∈ bound.map (·.1) := by
  unfold compileSides at h
  split at h
  . simp only [Checked.seq_eq_ok, Checked.functorMap_eq_ok] at h
    obtain ⟨-, r, ⟨l, hl, rfl⟩, hr, rfl⟩ := h
    rcases href with heq | heq <;> cases heq
    . exact bound_of_compileRef hl
    . exact bound_of_compileRef hr
  . cases h
    simp at href

/-- What the compiler guarantees of a condition behind some bound variables. -/
structure CompiledTo (bound : Bound) (condition : Condition) : Prop where
  uses : ∀ var ∈ condition.uses, var ∈ bound.map (·.1)
  safe : condition.Safe

theorem compiledTo_join {spec : JoinSpec} {condition : Condition}
    (h : compileJoin types bound place spec = .ok condition) :
    CompiledTo bound condition ∧ condition.var? = none := by
  unfold compileJoin at h
  split at h
  . simp at h
  split at h
  . simp at h
  simp only [Checked.seq_eq_ok, Checked.functorMap_eq_ok] at h
  obtain ⟨-, -, ⟨-, checked, ⟨-, op, ⟨sides, hsides, rfl⟩, -, rfl⟩, hvars, rfl⟩, -, rfl⟩ := h
  refine ⟨⟨?_, ?_⟩, rfl⟩
  . intro var hvar
    simp only [Condition.uses, List.mem_append, Option.mem_toList,
      Option.map_eq_some_iff] at hvar
    rcases hvar with (⟨ref, href, rfl⟩ | ⟨ref, href, rfl⟩) | hvar
    . exact bound_of_compileSides hsides ref (.inl href)
    . exact bound_of_compileSides hsides ref (.inr href)
    . obtain ⟨u, hbound⟩ := Checked.forall_of_all_map hvars var hvar
      exact isSome_lookup.mp (Compiled.require_eq_ok.mp hbound)
  . intro filter hfilter
    cases hfilter

theorem compiledTo_negation {spec : NegationSpec} {condition : Condition}
    (h : compileNegation types bound place spec = .ok condition) :
    CompiledTo bound condition ∧ condition.var? = none := by
  simp only [compileNegation, Checked.andThen_eq_ok, Checked.seq_eq_ok,
    Checked.functorMap_eq_ok] at h
  obtain ⟨-, -, -, keys, ⟨tests, htests, rfl⟩, hkeys, rfl⟩ := h
  refine ⟨⟨?_, ?_⟩, rfl⟩
  . intro var hvar
    obtain ⟨key, hkey, rfl⟩ := List.mem_map.mp hvar
    exact bound_of_compileKeys hkeys key hkey
  . intro filter hfilter
    cases hfilter
    exact safe_compileTests htests

theorem compiledTo_aggregate {spec : AggregateSpec} {condition : Condition}
    (h : compileAggregate types bound place spec = .ok condition) :
    CompiledTo bound condition ∧ condition.var? = none := by
  simp only [compileAggregate, Checked.andThen_eq_ok, Checked.seq_eq_ok,
    Checked.functorMap_eq_ok] at h
  obtain ⟨-, -, -, keys, ⟨-, tests, ⟨-, op, ⟨-, -, ⟨function, -, rfl⟩, -, rfl⟩, -, rfl⟩, htests,
    rfl⟩, hkeys, rfl⟩ := h
  refine ⟨⟨?_, ?_⟩, rfl⟩
  . intro var hvar
    obtain ⟨key, hkey, rfl⟩ := List.mem_map.mp hvar
    exact bound_of_compileKeys hkeys key hkey
  . intro filter hfilter
    cases hfilter
    exact safe_compileTests htests

theorem compiledTo_pattern {spec : PatternSpec} {condition : Condition}
    (h : compilePattern types bound place spec = .ok condition) :
    CompiledTo bound condition ∧ condition.var? = some spec.var
      ∧ (types.find spec.factType).isSome ∧ (bound.lookup spec.var).isNone := by
  simp only [compilePattern, Checked.andThen_eq_ok] at h
  obtain ⟨type, htype, hrest⟩ := h
  split at hrest
  . simp at hrest
  . next hnew =>
    simp only [Checked.map_eq_ok] at hrest
    obtain ⟨tests, htests, rfl⟩ := hrest
    refine ⟨⟨?_, ?_⟩, rfl, ?_, ?_⟩
    . intro var hvar
      cases hvar
    . intro filter hfilter
      cases hfilter
      exact safe_compileTests htests
    . unfold Declarations.require at htype
      split at htype
      . next declared hfind => simp [hfind]
      . simp at htype
    . exact Option.not_isSome_iff_eq_none.mp hnew ▸ rfl

theorem compiledTo_compileCondition {spec : ConditionSpec} {condition : Condition}
    (h : compileCondition types bound place spec = .ok condition) :
    CompiledTo bound condition
      ∧ (bound.extend types spec).map (·.1) = bound.map (·.1) ++ condition.var?.toList := by
  cases spec with
  | pattern spec =>
    obtain ⟨hto, hvar, hfind, hnew⟩ := compiledTo_pattern h
    refine ⟨hto, ?_⟩
    rw [hvar]
    simp only [Bound.extend, hfind, hnew]
    simp
  | join spec =>
    obtain ⟨hto, hvar⟩ := compiledTo_join h
    exact ⟨hto, by simp [hvar, Bound.extend]⟩
  | negation spec =>
    obtain ⟨hto, hvar⟩ := compiledTo_negation h
    exact ⟨hto, by simp [hvar, Bound.extend]⟩
  | aggregate spec =>
    obtain ⟨hto, hvar⟩ := compiledTo_aggregate h
    exact ⟨hto, by simp [hvar, Bound.extend]⟩

theorem scoped_compileConditions {rule : String} {position : Nat} {specs : List ConditionSpec}
    {conditions : List Condition}
    (h : (compileConditions types rule position bound specs).1 = .ok conditions) :
    Condition.Scoped (bound.map (·.1)) conditions
      ∧ ∀ condition ∈ conditions, condition.Safe := by
  induction specs generalizing position bound conditions with
  | nil =>
    cases h
    exact ⟨trivial, by simp⟩
  | cons spec specs ih =>
    simp only [compileConditions, Checked.apply_eq_ok, Checked.map_eq_ok] at h
    obtain ⟨-, rest, ⟨condition, hcondition, rfl⟩, hrest, rfl⟩ := h
    obtain ⟨hto, hextend⟩ := compiledTo_compileCondition hcondition
    obtain ⟨hscoped, hsafe⟩ := ih hrest
    rw [hextend] at hscoped
    exact ⟨⟨hto.uses, hscoped⟩, List.forall_mem_cons.mpr ⟨hto.safe, hsafe⟩⟩

end Parts

/-! ### Rules -/

theorem compileRule_eq_ok {types : Declarations} {order : Int} {spec : RuleSpec} {rule : Rule}
    (h : compileRule types order spec = .ok rule) :
    rule.name = spec.name ∧ rule.order = order ∧ Condition.Scoped [] rule.conditions
      ∧ ∀ condition ∈ rule.conditions, condition.Safe := by
  simp only [compileRule, Checked.seq_eq_ok, Checked.functorMap_eq_ok] at h
  obtain ⟨-, action, ⟨conditions, hconditions, rfl⟩, -, rfl⟩ := h
  obtain ⟨hscoped, hsafe⟩ := scoped_compileConditions hconditions
  exact ⟨rfl, rfl, hscoped, hsafe⟩

theorem compileRules_eq_ok {types : Declarations} {order : Nat} {seen : List String}
    {specs : List RuleSpec} {rules : List Rule}
    (h : compileRules types order seen specs = .ok rules) :
    (rules.map (·.name)).Nodup ∧ (∀ rule ∈ rules, rule.name ∉ seen)
      ∧ rules.Pairwise (fun a b => a.order < b.order) ∧ (∀ rule ∈ rules, (order : Int) ≤ rule.order)
      ∧ ∀ rule ∈ rules, Condition.Scoped [] rule.conditions
        ∧ ∀ condition ∈ rule.conditions, condition.Safe := by
  induction specs generalizing order seen rules with
  | nil =>
    cases h
    simp
  | cons spec specs ih =>
    simp only [compileRules, Checked.apply_eq_ok, Checked.map_eq_ok] at h
    obtain ⟨-, rest, ⟨rule, hrule, rfl⟩, hrest, rfl⟩ := h
    obtain ⟨hnames, hseen, horders, hleast, hconditions⟩ := ih hrest
    split at hrule
    . simp at hrule
    . next hnew =>
      obtain ⟨hname, horder, hcompiled⟩ := compileRule_eq_ok hrule
      refine ⟨?_, ?_, ?_, ?_, ?_⟩
      . rw [List.map_cons, List.nodup_cons, List.mem_map, hname]
        refine ⟨?_, hnames⟩
        rintro ⟨other, hother, heq⟩
        exact hseen other hother (by simp [heq])
      . rw [List.forall_mem_cons]
        refine ⟨by simpa [hname] using hnew, ?_⟩
        intro other hother hmem
        exact hseen other hother (by simp [hmem])
      . rw [List.pairwise_cons]
        refine ⟨?_, horders⟩
        intro other hother
        have hlater := hleast other hother
        push_cast at hlater
        omega
      . rw [List.forall_mem_cons]
        refine ⟨by omega, ?_⟩
        intro other hother
        have hlater := hleast other hother
        push_cast at hlater
        omega
      . exact List.forall_mem_cons.mpr ⟨hcompiled, hconditions⟩

theorem compile_eq_ok {spec : RuleSetSpec} {ruleSet : RuleSet} :
    spec.compile = .ok ruleSet ↔ ∃ factTypes rules,
      Declarations.compile spec.factTypes [] = .ok factTypes
      ∧ compileRules (Declarations.ofSpecs spec.factTypes) 0 [] spec.rules = .ok rules
      ∧ ruleSet = {
          name := spec.name
          version := spec.version
          factTypes
          rules
          index := .build rules
          digest := spec.digest } := by
  simp only [RuleSetSpec.compile, Checked.seq_eq_ok, Checked.functorMap_eq_ok]
  constructor
  . rintro ⟨-, rules, ⟨factTypes, hfactTypes, rfl⟩, hrules, rfl⟩
    exact ⟨factTypes, rules, hfactTypes, hrules, rfl⟩
  . rintro ⟨factTypes, rules, hfactTypes, hrules, rfl⟩
    exact ⟨_, rules, ⟨factTypes, hfactTypes, rfl⟩, hrules, rfl⟩

theorem wellFormed_of_compile {spec : RuleSetSpec} {ruleSet : RuleSet}
    (h : spec.compile = .ok ruleSet) : ruleSet.WellFormed := by
  obtain ⟨types, rules, -, hrules, rfl⟩ := compile_eq_ok.mp h
  obtain ⟨hnames, -, horders, -, hconditions⟩ := compileRules_eq_ok hrules
  exact ⟨hnames, horders, rfl, fun rule hrule => (hconditions rule hrule).2,
    fun rule hrule => (hconditions rule hrule).1⟩

end ForwardChaining
