import ForwardChaining.Proofs.Network.Equivalence
import ForwardChaining.Proofs.Rule.Scope

/-!
This module contains the proof that the patterns of a compiled rule set may share memories: those of one
identity accept the same facts, if no fact holds a NaN that is written in the rule set.
-/

namespace ForwardChaining

/-- The patterns of a rule set. -/
def RuleSetSpec.patterns (spec : RuleSetSpec) : List PatternSpec :=
  spec.rules.flatMap fun rule => rule.conditions.filterMap fun
    | .pattern pattern => some pattern
    | _ => none

/-- Where the NaNs come from that are written in the patterns of a rule set. -/
def RuleSetSpec.nans (spec : RuleSetSpec) : List NanOrigin :=
  spec.patterns.flatMap fun pattern => pattern.tests.flatMap (·.value.nans)

/-- The fact holds none of some NaNs. -/
def Fact.FreeOf (origins : List NanOrigin) (fact : Fact) : Prop :=
  ∀ entry ∈ fact.data, ∀ origin ∈ entry.2.nans, origin ∉ origins

theorem nans_testValue (op : Operator) (value : Value) : (testValue op value).nans = value.nans := by
  unfold testValue
  split <;> rfl

section

variable {types : Declarations} {bound : Bound} {place : String}

theorem nans_compileTests {type : String} {checks : List CheckSpec} {tests : List FieldTest}
    (h : compileTests types place type checks = .ok tests) {test : FieldTest} (htest : test ∈ tests) :
    ∃ check ∈ checks, test.value.nans = check.value.nans := by
  obtain ⟨check, hmem, hcheck⟩ := Checked.exists_of_all_map h htest
  simp only [compileTest, Checked.andThen_eq_ok, Checked.map_eq_ok] at hcheck
  obtain ⟨op, -, -, -, rfl⟩ := hcheck
  exact ⟨check, hmem, nans_testValue op check.value⟩

theorem nans_compileCondition {spec : ConditionSpec} {filter : FactFilter} {var : String}
    (h : compileCondition types bound place spec = .ok (.pattern filter var)) :
    ∃ pattern, spec = .pattern pattern
      ∧ ∀ test ∈ filter.tests, ∃ check ∈ pattern.tests, test.value.nans = check.value.nans := by
  have hbinding := binding?_compileCondition h
  cases spec with
  | pattern pattern =>
    refine ⟨pattern, rfl, ?_⟩
    simp only [compileCondition, compilePattern, Checked.andThen_eq_ok] at h
    obtain ⟨-, -, h⟩ := h
    split at h
    . simp at h
    . obtain ⟨tests, htests, heq⟩ := Checked.map_eq_ok.mp h
      cases heq
      exact fun test htest => nans_compileTests htests htest
  | join | negation | aggregate => cases hbinding

theorem exists_of_compileConditions {rule : String} {position : Nat} {specs : List ConditionSpec}
    {conditions : List Condition}
    (h : (compileConditions types rule position bound specs).1 = .ok conditions)
    {condition : Condition} (hcondition : condition ∈ conditions) :
    ∃ bound place, ∃ spec ∈ specs, compileCondition types bound place spec = .ok condition := by
  induction specs generalizing position bound conditions with
  | nil =>
    cases h
    cases hcondition
  | cons spec specs ih =>
    simp only [compileConditions, Checked.apply_eq_ok, Checked.map_eq_ok] at h
    obtain ⟨-, rest, ⟨first, hfirst, rfl⟩, hrest, rfl⟩ := h
    rcases List.mem_cons.mp hcondition with rfl | hcondition
    . exact ⟨_, _, spec, by simp, hfirst⟩
    . obtain ⟨bound, place, other, hother, hcompiled⟩ := ih hrest hcondition
      exact ⟨bound, place, other, by simp [hother], hcompiled⟩

end

theorem nans_of_compile {spec : RuleSetSpec} {ruleSet : RuleSet} (h : spec.compile = .ok ruleSet)
    {filter : FactFilter} (hfilter : IsPatternOf ruleSet.rules filter) {test : FieldTest}
    (htest : test ∈ filter.tests) {origin : NanOrigin} (horigin : origin ∈ test.value.nans) :
    origin ∈ spec.nans := by
  obtain ⟨types, rules, -, hrules, rfl⟩ := compile_eq_ok.mp h
  obtain ⟨rule, hrule, var, hcondition⟩ := hfilter
  obtain ⟨order, ruleSpec, hruleSpec, hcompiled⟩ := exists_of_compileRules hrules hrule
  simp only [compileRule, Checked.seq_eq_ok, Checked.functorMap_eq_ok] at hcompiled
  obtain ⟨-, action, ⟨conditions, hconditions, rfl⟩, -, rfl⟩ := hcompiled
  obtain ⟨bound, place, conditionSpec, hconditionSpec, hcompiled⟩ :=
    exists_of_compileConditions hconditions hcondition
  obtain ⟨pattern, rfl, htests⟩ := nans_compileCondition hcompiled
  obtain ⟨check, hcheck, hnans⟩ := htests test htest
  have hpattern : pattern ∈ spec.patterns :=
    List.mem_flatMap.mpr ⟨ruleSpec, hruleSpec, List.mem_filterMap.mpr ⟨_, hconditionSpec, rfl⟩⟩
  rw [hnans] at horigin
  exact List.mem_flatMap.mpr ⟨pattern, hpattern, List.mem_flatMap.mpr ⟨check, hcheck, horigin⟩⟩

theorem apartFrom_of_compile {spec : RuleSetSpec} {ruleSet : RuleSet}
    (h : spec.compile = .ok ruleSet) {filter : FactFilter} (hfilter : IsPatternOf ruleSet.rules filter)
    {fact : Fact} (hfact : fact.FreeOf spec.nans) : fact.ApartFrom filter.tests := by
  intro test htest field origin horigin hwritten
  rcases fact.get_cases field with hnull | ⟨entry, hentry, heq⟩
  . rw [hnull] at horigin
    cases horigin
  . rw [heq] at horigin
    exact hfact entry hentry origin horigin (nans_of_compile h hfilter htest hwritten)

/-- Patterns that share a memory accept the same facts. -/
theorem accepts_shared {spec : RuleSetSpec} {ruleSet : RuleSet} (h : spec.compile = .ok ruleSet)
    (hpredicates : SharesPredicates ruleSet.rules) {filter other : FactFilter}
    (hfilter : IsPatternOf ruleSet.rules filter) (hother : IsPatternOf ruleSet.rules other)
    (hidentity : filter.identity = other.identity) {fact : Fact} (hfact : fact.FreeOf spec.nans) :
    filter.accepts fact = other.accepts fact := by
  have hpredicate : filter.predicate = other.predicate :=
    hpredicates other hother filter hfilter (FactFilter.Identity.mk.inj hidentity).2.2
  exact FactFilter.accepts_of_identity hidentity hpredicate (apartFrom_of_compile h hfilter hfact)
    (apartFrom_of_compile h hother hfact)

/-- A level that is a certain NaN or one, as it is written in a rule set. -/
def levelCheck (n : Nat) : CheckSpec where
  field := "level"
  operator := "in"
  value := .list [.float (.nan (.written n)), .int 1]

/-- Two rules that test a level in the same way, each with a NaN of its own. -/
def levelSpec : RuleSetSpec where
  factTypes := [{ name := "reading" }]
  rules := [
    { name := "first"
      conditions := [.pattern { var := "r", factType := "reading", tests := [levelCheck 0] }] },
    { name := "second"
      conditions := [.pattern { var := "r", factType := "reading", tests := [levelCheck 1] }] }]

/-- The filter that comes out of a check. -/
def levelFilter (n : Nat) : FactFilter where
  type := "reading"
  tests := [{ field := "level", op := .isIn, value := .tuple [.float (.nan (.written n)), .int 1] }]

def levelRule (n : Nat) (name : String) : Rule where
  name
  conditions := [.pattern (levelFilter n) "r"]
  order := n

def levelRules : List Rule :=
  [levelRule 0 "first", levelRule 1 "second"]

theorem compile_levelSpec : levelSpec.compile = .ok {
    factTypes := [{ name := "reading" }]
    rules := levelRules
    index := .build levelRules
    digest := levelSpec.digest } :=
  compile_eq_ok.mpr ⟨_, _, rfl, rfl, rfl⟩

/-- A reading of yet another NaN. -/
def levelFact : Fact where
  id := 1
  type := "reading"
  data := [(.text "level", .float (.nan (.written 2)))]

theorem accepts_shared_level : ∃ ruleSet, levelSpec.compile = .ok ruleSet
    ∧ SharesPredicates ruleSet.rules
    ∧ IsPatternOf ruleSet.rules (levelFilter 0) ∧ IsPatternOf ruleSet.rules (levelFilter 1)
    ∧ (levelFilter 0).identity = (levelFilter 1).identity
    ∧ levelFact.FreeOf levelSpec.nans
    ∧ (levelFilter 0).accepts levelFact = (levelFilter 1).accepts levelFact := by
  have hpatterns {filter : FactFilter} :
      IsPatternOf levelRules filter ↔ filter = levelFilter 0 ∨ filter = levelFilter 1 := by
    simp [IsPatternOf, levelRules, levelRule]
  have hpredicates : SharesPredicates levelRules := by
    intro filter hfilter other hother _
    rcases hpatterns.mp hfilter with rfl | rfl <;> rcases hpatterns.mp hother with rfl | rfl <;> rfl
  have hfirst : IsPatternOf levelRules (levelFilter 0) := hpatterns.mpr (.inl rfl)
  have hsecond : IsPatternOf levelRules (levelFilter 1) := hpatterns.mpr (.inr rfl)
  have hidentity : (levelFilter 0).identity = (levelFilter 1).identity := rfl
  have hfree : levelFact.FreeOf levelSpec.nans := by
    intro entry hentry origin horigin
    rw [List.mem_singleton.mp hentry] at horigin
    rw [List.mem_singleton.mp horigin]
    decide
  exact ⟨_, compile_levelSpec, hpredicates, hfirst, hsecond, hidentity, hfree,
    accepts_shared compile_levelSpec hpredicates hfirst hsecond hidentity hfree⟩

end ForwardChaining
