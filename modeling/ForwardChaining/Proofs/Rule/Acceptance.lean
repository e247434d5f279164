import ForwardChaining.Proofs.Rule.WellFormed

/-!
This module contains that the compiler accepts just the rule sets that are well formed, and that it names
a defect of every other one. Each part of a rule set compiles if and only if it is well formed where it
stands; the variables that the compiler has bound by then are those of the patterns before it.
-/

namespace ForwardChaining

open FactTypeSpec (Declared Permits)

/-! ### Conditions and actions -/

section

variable {specs : List FactTypeSpec} {bound : Bound} {place : String}
  (hspecs : (specs.map (·.name)).Nodup) (hbound : (bound.map (·.1)).Nodup)

include hspecs

theorem succeeds_requireField {type field : String} :
    ((Declarations.ofSpecs specs).requireField place type field).Succeeds
      ↔ Permits specs type field := by
  rw [Declarations.requireField, Compiled.succeeds_require, Declarations.hasField_ofSpecs hspecs]

theorem succeeds_requireType {type : String} :
    ((Declarations.ofSpecs specs).require place type).Succeeds ↔ Declared specs type := by
  rw [Declarations.succeeds_require, Declarations.find_ofSpecs hspecs]

theorem succeeds_compileTest {type : String} {check : CheckSpec} :
    (compileTest (Declarations.ofSpecs specs) place type check).Succeeds
      ↔ check.WellFormed specs type := by
  rw [compileTest, Checked.succeeds_andThen_of fun _ => Checked.succeeds_map,
    Operator.succeeds_compileOperator, succeeds_requireField hspecs]
  constructor
  . rintro ⟨hop, hfield⟩
    exact ⟨hop, hfield⟩
  . intro h
    exact ⟨h.operator, h.field⟩

theorem succeeds_compileTests {type : String} {checks : List CheckSpec} :
    (compileTests (Declarations.ofSpecs specs) place type checks).Succeeds
      ↔ ∀ check ∈ checks, check.WellFormed specs type := by
  simp only [compileTests, Checked.succeeds_all_map, succeeds_compileTest hspecs]

theorem succeeds_compilePattern {spec : PatternSpec} :
    (compilePattern (Declarations.ofSpecs specs) bound place spec).Succeeds
      ↔ spec.WellFormed specs bound := by
  rw [compilePattern, Checked.succeeds_andThen_of fun _ => Iff.rfl, succeeds_requireType hspecs]
  split
  . next htwice =>
    simp only [Compiled.not_succeeds_defect, and_false, false_iff]
    exact fun h => h.var (isSome_lookup.mp htwice)
  . next hnew =>
    rw [isSome_lookup] at hnew
    rw [Checked.succeeds_map, succeeds_compileTests hspecs]
    constructor
    . rintro ⟨htype, htests⟩
      exact ⟨htype, hnew, htests⟩
    . intro h
      exact ⟨h.type, h.tests⟩

theorem succeeds_given {type message : String} {field : Option String} {a : α} :
    (if field.getD "" == "" then (Compiled.defect place message : Compiled α)
      else ((Declarations.ofSpecs specs).requireField place type (field.getD "")).map
        fun _ => a).Succeeds
      ↔ ∃ name, field = some name ∧ name ≠ "" ∧ Permits specs type name := by
  cases field with
  | none => simp
  | some name =>
    by_cases hempty : name = ""
    . simp [hempty]
    . simp [hempty, succeeds_requireField hspecs]

theorem succeeds_compileFunction {spec : AggregateSpec} :
    (compileFunction (Declarations.ofSpecs specs) place spec).Succeeds
      ↔ ∃ f : AggregateFunction, Text.lower spec.function = f.name
        ∧ (f ≠ .count → ∃ field, spec.field = some field ∧ field ≠ ""
          ∧ Permits specs spec.factType field) := by
  simp only [← AggregateFunction.ofName?_eq_some]
  unfold compileFunction
  split
  . next hnone => simp [hnone]
  . next hcount => simp [hcount]
  . next f hother hf =>
    have hcount : f ≠ .count := hother
    simp only [succeeds_given hspecs, hf, Option.some.injEq, exists_eq_left', hcount, ne_eq,
      not_false_eq_true, true_implies]

theorem succeeds_insertion {type : String} {data : List (String × Operand)}
    {message : FactType → String} :
    (((Declarations.ofSpecs specs).require place type).andThen fun declared =>
      if (declared.undeclared (data.map (·.1))).isEmpty then .ok (ActionStep.insert type data)
      else Compiled.defect place (message declared)).Succeeds
      ↔ Declared specs type ∧ ∀ entry ∈ data, Permits specs type entry.1 := by
  rw [← Declarations.find_ofSpecs hspecs, Declarations.require]
  cases hfind : (Declarations.ofSpecs specs).find type with
  | none => simp [Checked.andThen, Compiled.defect, Checked.fail, Checked.Succeeds]
  | some declared =>
    have haccepts (field : String) :
        declared.accepts (.text field) = true ↔ Permits specs type field := by
      rw [← Declarations.hasField_ofSpecs hspecs, Declarations.hasField_of_find hfind]
    have hall : (declared.undeclared (data.map (·.1))).isEmpty
        ↔ ∀ entry ∈ data, Permits specs type entry.1 := by
      rw [FactType.isEmpty_undeclared]
      simp [haccepts]
    rw [← hall]
    by_cases hempty : (declared.undeclared (data.map (·.1))).isEmpty <;>
      simp [Checked.andThen, hempty]

include hbound

theorem succeeds_compileRef {ref : String} :
    (compileRef (Declarations.ofSpecs specs) bound place ref).Succeeds
      ↔ bound.Refers specs ref := by
  simp only [Bound.refers_iff, ← lookup_eq_some_iff_mem hbound]
  unfold compileRef
  split
  . next hcut => simp [hcut]
  . next var field hcut =>
    split
    . next hempty =>
      have hmissing : var ≠ "" → field = "" := by simpa [or_iff_not_imp_left] using hempty
      simpa [hcut] using fun hvar hfield => absurd (hmissing hvar) hfield
    . next hfull =>
      have hparts : var ≠ "" ∧ field ≠ "" := by simpa using hfull
      split
      . next hlookup => simp [hcut, hlookup]
      . next type hlookup =>
        simp [hcut, hlookup, hparts, succeeds_requireField hspecs]

theorem succeeds_compileKeys {type : String} {correlations : List (String × String)} :
    (compileKeys (Declarations.ofSpecs specs) bound place type correlations).Succeeds
      ↔ bound.Correlates specs type correlations := by
  rw [compileKeys, Checked.succeeds_all_map]
  have hone (correlation : String × String) :
      ((compileRef (Declarations.ofSpecs specs) bound place correlation.2).andThen fun ref =>
        ((Declarations.ofSpecs specs).requireField place type correlation.1).map fun _ =>
          (⟨correlation.1, ref⟩ : KeyBinding)).Succeeds
      ↔ bound.Refers specs correlation.2 ∧ Permits specs type correlation.1 := by
    rw [Checked.succeeds_andThen_of fun _ => Checked.succeeds_map,
      succeeds_compileRef hspecs hbound, succeeds_requireField hspecs]
  have hmem (correlation : String × String) :
      correlation ∈ sortByKey correlations ↔ correlation ∈ correlations :=
    (List.mergeSort_perm _ _).mem_iff
  simp only [hone, hmem]
  rfl

theorem succeeds_compileSides {left right : Option String} (h : left.isSome = right.isSome) :
    (compileSides (Declarations.ofSpecs specs) bound place left right).Succeeds
      ↔ (∀ ref, left = some ref → bound.Refers specs ref)
        ∧ ∀ ref, right = some ref → bound.Refers specs ref := by
  cases left <;> cases right <;> simp at h <;>
    simp [compileSides, succeeds_compileRef hspecs hbound]

theorem succeeds_compileJoin {spec : JoinSpec} :
    (compileJoin (Declarations.ofSpecs specs) bound place spec).Succeeds
      ↔ spec.WellFormed specs bound := by
  unfold compileJoin
  split
  . next hidle =>
    simp only [Bool.and_eq_true, Bool.or_eq_true, Option.isNone_iff_eq_none] at hidle
    simp only [Compiled.not_succeeds_defect, false_iff]
    intro h
    have hleft : spec.left = none := by
      have hsides := h.sides
      rcases hidle.2 with hnone | hnone
      . exact hnone
      . simpa [hnone] using hsides
    exact h.purpose hleft hidle.1
  . next hbusy =>
    split
    . next hone =>
      simp only [Compiled.not_succeeds_defect, false_iff]
      intro h
      simp [← Option.not_isSome, h.sides] at hone
    . next hboth =>
      have hsides : spec.left.isSome = spec.right.isSome := by
        simpa [← Option.not_isSome] using hboth
      simp only [Checked.succeeds_seq, Checked.succeeds_functorMap,
        succeeds_compileSides hspecs hbound hsides, Operator.succeeds_compileOperator,
        Checked.succeeds_all_map, Compiled.succeeds_require, isSome_lookup]
      constructor
      . rintro ⟨⟨⟨⟨hleft, hright⟩, hop⟩, hvars⟩, hnamed⟩
        refine ⟨hsides, ?_, hleft, hright, hop, hvars, ?_⟩
        . intro hnone hpredicate
          simp [hnone, hpredicate] at hbusy
        . intro hpredicate
          simpa [hpredicate] using hnamed
      . intro h
        refine ⟨⟨⟨⟨h.left, h.right⟩, h.operator⟩, h.vars⟩, ?_⟩
        have hnamed := h.predicate
        cases hpredicate : spec.predicate <;> simp_all

theorem succeeds_compileNegation {spec : NegationSpec} :
    (compileNegation (Declarations.ofSpecs specs) bound place spec).Succeeds
      ↔ spec.WellFormed specs bound := by
  rw [compileNegation, Checked.succeeds_andThen_of fun _ => Iff.rfl, succeeds_requireType hspecs,
    Checked.succeeds_seq, Checked.succeeds_functorMap, succeeds_compileTests hspecs,
    succeeds_compileKeys hspecs hbound]
  constructor
  . rintro ⟨htype, htests, hkeys⟩
    exact ⟨htype, htests, hkeys⟩
  . intro h
    exact ⟨h.type, h.tests, h.correlations⟩

theorem succeeds_compileAggregate {spec : AggregateSpec} :
    (compileAggregate (Declarations.ofSpecs specs) bound place spec).Succeeds
      ↔ spec.WellFormed specs bound := by
  rw [compileAggregate, Checked.succeeds_andThen_of fun _ => Iff.rfl, succeeds_requireType hspecs]
  simp only [Checked.succeeds_seq, Checked.succeeds_functorMap,
    succeeds_compileFunction hspecs, Compiled.succeeds_require, Operator.succeeds_compileOperator,
    succeeds_compileTests hspecs, succeeds_compileKeys hspecs hbound]
  have hbind : (!spec.bind.any fun name => (bound.lookup name).isSome) = true
      ↔ ∀ name, spec.bind = some name → name ∉ bound.map (·.1) := by
    cases spec.bind with
    | none => simp
    | some name =>
      simp only [Option.any_some, Bool.not_eq_true', ← Bool.not_eq_true, isSome_lookup,
        Option.some.injEq, forall_eq']
  rw [hbind]
  constructor
  . rintro ⟨htype, ⟨⟨⟨hfunction, hbind⟩, hop⟩, htests⟩, hkeys⟩
    exact ⟨htype, hfunction, hbind, hop, htests, hkeys⟩
  . intro h
    exact ⟨h.type, ⟨⟨⟨h.function, h.bind⟩, h.operator⟩, h.tests⟩, h.correlations⟩

theorem succeeds_compileCondition {spec : ConditionSpec} :
    (compileCondition (Declarations.ofSpecs specs) bound place spec).Succeeds
      ↔ spec.WellFormed specs bound := by
  cases spec with
  | pattern spec => exact succeeds_compilePattern hspecs
  | join spec => exact succeeds_compileJoin hspecs hbound
  | negation spec => exact succeeds_compileNegation hspecs hbound
  | aggregate spec => exact succeeds_compileAggregate hspecs hbound

theorem succeeds_compileAction {spec : ActionSpec} :
    (compileAction (Declarations.ofSpecs specs) bound place spec).Succeeds
      ↔ spec.WellFormed specs bound := by
  unfold compileAction ActionSpec.WellFormed
  cases hkind : spec.kind with
  | explain =>
    cases spec.text with
    | none => simp
    | some text => by_cases hempty : text = "" <;> simp [hempty]
  | insert =>
    cases spec.factType with
    | none => simp
    | some type =>
      by_cases hempty : type = ""
      . simp [hempty]
      . have hif : ((some type).getD "" == "") = false := by simpa using hempty
        simp only [hif, Bool.false_eq_true, if_false]
        rw [Option.getD_some, succeeds_insertion hspecs]
        simp [hempty]
  | retract =>
    dsimp only
    split
    . next hnone =>
      simp only [Compiled.not_succeeds_defect, false_iff]
      rintro ⟨var, htarget, hvar⟩
      obtain ⟨entry, hentry, heq⟩ := List.mem_map.mp hvar
      have hfound := (Bound.target_eq_some hbound).mpr ⟨heq ▸ htarget, hentry⟩
      simp [hnone] at hfound
    . next var type hfound =>
      obtain ⟨htarget, hentry⟩ := (Bound.target_eq_some hbound).mp hfound
      simpa [htarget] using ⟨_, hentry⟩
  | set | append =>
    dsimp only
    split
    . next hnone =>
      simp only [Compiled.not_succeeds_defect, false_iff]
      rintro ⟨var, type, field, htarget, hentry, -⟩
      have hfound := (Bound.target_eq_some hbound).mpr ⟨htarget, hentry⟩
      simp [hnone] at hfound
    . next var type hfound =>
      obtain ⟨htarget, hentry⟩ := (Bound.target_eq_some hbound).mp hfound
      rw [if_neg (by decide), succeeds_given hspecs]
      constructor
      . rintro ⟨field, hfield⟩
        exact ⟨var, type, field, htarget, hentry, hfield⟩
      . rintro ⟨var', type', field, htarget', hentry', hfield⟩
        have hsame := hfound.symm.trans ((Bound.target_eq_some hbound).mpr ⟨htarget', hentry'⟩)
        cases hsame
        exact ⟨field, hfield⟩

end

/-! ### Rules -/

theorem Bound.extend_of_wellFormed {specs : List FactTypeSpec}
    (hspecs : (specs.map (·.name)).Nodup) {bound : Bound} {condition : ConditionSpec}
    (h : condition.WellFormed specs bound) :
    bound.extend (Declarations.ofSpecs specs) condition = bound ++ condition.binding?.toList := by
  cases condition with
  | pattern spec =>
    have hdeclared := (Declarations.find_ofSpecs hspecs).mpr h.type
    have hnew : bound.lookup spec.var = none := by
      rw [← Option.not_isSome_iff_eq_none, isSome_lookup]
      exact h.var
    simp [Bound.extend, ConditionSpec.binding?, hdeclared, hnew]
  | _ => simp [Bound.extend, ConditionSpec.binding?]

theorem Bound.nodup_extend {specs : List FactTypeSpec} {bound : Bound}
    (hbound : (bound.map (·.1)).Nodup) {condition : ConditionSpec}
    (h : condition.WellFormed specs bound) :
    ((bound ++ condition.binding?.toList).map (·.1)).Nodup := by
  cases condition with
  | pattern spec =>
    rw [List.map_append, List.nodup_append]
    refine ⟨hbound, by simp [ConditionSpec.binding?], ?_⟩
    rintro var hvar other hother rfl
    simp only [ConditionSpec.binding?, Option.toList_some, List.map_cons, List.map_nil,
      List.mem_singleton] at hother
    exact h.var (hother ▸ hvar)
  | _ => simpa [ConditionSpec.binding?] using hbound

/-- The conditions fit behind the patterns that bind some variables, one behind the other. -/
def ConditionSpec.Chained (types : List FactTypeSpec) (bound : Bound) :
    List ConditionSpec → Prop
  | [] => True
  | condition :: conditions => condition.WellFormed types bound
    ∧ Chained types (bound ++ condition.binding?.toList) conditions

theorem ConditionSpec.bindings_cons (condition : ConditionSpec)
    (conditions : List ConditionSpec) :
    bindings (condition :: conditions) = condition.binding?.toList ++ bindings conditions := by
  rw [bindings, filterMap_cons_append]
  rfl

theorem ConditionSpec.chained_iff {types : List FactTypeSpec} {bound : Bound}
    {conditions : List ConditionSpec} :
    Chained types bound conditions ↔ ∀ before condition after,
      conditions = before ++ condition :: after →
      condition.WellFormed types (bound ++ bindings before) := by
  induction conditions generalizing bound with
  | nil => simp [Chained]
  | cons first conditions ih =>
    rw [Chained, ih]
    constructor
    . rintro ⟨hfirst, hrest⟩ before condition after heq
      cases before with
      | nil =>
        cases heq
        simpa [bindings] using hfirst
      | cons _ before =>
        cases heq
        have hcondition := hrest before condition after rfl
        rwa [List.append_assoc, ← bindings_cons] at hcondition
    . intro h
      refine ⟨by simpa [bindings] using h [] first conditions rfl, ?_⟩
      rintro before condition after rfl
      have hcondition := h (first :: before) condition after rfl
      rwa [bindings_cons, ← List.append_assoc] at hcondition

section

variable {specs : List FactTypeSpec} (hspecs : (specs.map (·.name)).Nodup)

include hspecs

theorem succeeds_compileConditions {rule : String} {position : Nat} {bound : Bound}
    (hbound : (bound.map (·.1)).Nodup) {conditions : List ConditionSpec} :
    (compileConditions (Declarations.ofSpecs specs) rule position bound conditions).1.Succeeds
      ↔ ConditionSpec.Chained specs bound conditions := by
  induction conditions generalizing position bound with
  | nil => simp [compileConditions, ConditionSpec.Chained]
  | cons condition conditions ih =>
    rw [compileConditions, Checked.succeeds_apply, Checked.succeeds_map,
      succeeds_compileCondition hspecs hbound, ConditionSpec.Chained]
    refine and_congr_right fun hcondition => ?_
    rw [Bound.extend_of_wellFormed hspecs hcondition]
    exact ih (Bound.nodup_extend hbound hcondition)

theorem bound_compileConditions {rule : String} {position : Nat} {bound : Bound}
    (hbound : (bound.map (·.1)).Nodup) {conditions : List ConditionSpec}
    (h : ConditionSpec.Chained specs bound conditions) :
    (compileConditions (Declarations.ofSpecs specs) rule position bound conditions).2
      = bound ++ ConditionSpec.bindings conditions
    ∧ ((bound ++ ConditionSpec.bindings conditions).map (·.1)).Nodup := by
  induction conditions generalizing position bound with
  | nil => simpa [compileConditions, ConditionSpec.bindings] using hbound
  | cons condition conditions ih =>
    rw [compileConditions, ConditionSpec.bindings_cons, ← List.append_assoc,
      Bound.extend_of_wellFormed hspecs h.1]
    exact ih (Bound.nodup_extend hbound h.1) h.2

theorem succeeds_compileActions {bound : Bound} (hbound : (bound.map (·.1)).Nodup)
    {spec : RuleSpec} :
    (compileActions (Declarations.ofSpecs specs) bound spec).Succeeds
      ↔ ∀ action ∈ spec.actions, action.WellFormed specs bound := by
  rw [compileActions, Checked.succeeds_map, Checked.succeeds_all_map]
  simp only [succeeds_compileAction hspecs hbound]
  conv_rhs => rw [← List.zipIdx_map_fst 0 spec.actions, List.forall_mem_map]

theorem succeeds_compileRule {order : Int} {spec : RuleSpec} :
    (compileRule (Declarations.ofSpecs specs) order spec).Succeeds ↔ spec.WellFormed specs := by
  rw [compileRule, Checked.succeeds_seq, Checked.succeeds_functorMap,
    succeeds_compileConditions hspecs (by simp)]
  have hconditions := @ConditionSpec.chained_iff specs [] spec.conditions
  simp only [List.nil_append] at hconditions
  constructor
  . rintro ⟨hchained, hactions⟩
    obtain ⟨heq, hnodup⟩ := bound_compileConditions hspecs (by simp) hchained
    rw [heq, succeeds_compileActions hspecs hnodup] at hactions
    exact ⟨hconditions.mp hchained, hactions⟩
  . intro h
    have hchained := hconditions.mpr h.conditions
    obtain ⟨heq, hnodup⟩ := bound_compileConditions hspecs (by simp) hchained
    refine ⟨hchained, ?_⟩
    rw [heq, succeeds_compileActions hspecs hnodup]
    exact h.actions

theorem succeeds_compileRules {order : Nat} {seen : List String} {rules : List RuleSpec} :
    (compileRules (Declarations.ofSpecs specs) order seen rules).Succeeds
      ↔ (rules.map (·.name)).Nodup ∧ (∀ rule ∈ rules, rule.name ∉ seen)
        ∧ ∀ rule ∈ rules, rule.WellFormed specs := by
  induction rules generalizing order seen with
  | nil => simp [compileRules]
  | cons rule rules ih =>
    rw [compileRules, Checked.succeeds_apply, Checked.succeeds_map, ih, List.map_cons,
      List.nodup_cons, List.forall_mem_cons, List.forall_mem_cons]
    split
    . next hseen =>
      have hmem : rule.name ∈ seen := by simpa using hseen
      simp [hmem]
    . next hnew =>
      have hmem : rule.name ∉ seen := by simpa using hnew
      rw [succeeds_compileRule hspecs]
      simp only [List.mem_cons, not_or, List.mem_map, not_exists, not_and]
      constructor
      . rintro ⟨hrule, hnodup, hapart, hrules⟩
        exact ⟨⟨fun other hother => (hapart other hother).1, hnodup⟩,
          ⟨hmem, fun other hother => (hapart other hother).2⟩, hrule, hrules⟩
      . rintro ⟨⟨hfresh, hnodup⟩, ⟨-, hapart⟩, hrule, hrules⟩
        exact ⟨hrule, hnodup, fun other hother => ⟨hfresh other hother, hapart other hother⟩,
          hrules⟩

end

theorem succeeds_compile {spec : RuleSetSpec} : spec.compile.Succeeds ↔ spec.WellFormed := by
  rw [RuleSetSpec.compile, Checked.succeeds_seq, Checked.succeeds_functorMap,
    Declarations.succeeds_compile]
  constructor
  . rintro ⟨⟨htypes, -⟩, hrules⟩
    obtain ⟨hnames, -, hrules⟩ := (succeeds_compileRules htypes).mp hrules
    exact ⟨htypes, hnames, hrules⟩
  . intro h
    exact ⟨⟨h.types, by simp⟩, (succeeds_compileRules h.types).mpr ⟨h.names, by simp, h.rules⟩⟩

/-! ### Defects -/

section

variable {types : Declarations} {bound : Bound} {place : String}

theorem explained_require {holds : Bool} {message : String} :
    (Compiled.require holds place message).Explained := by
  cases holds
  . exact .fail _
  . exact .ok ()

theorem explained_requireType {type : String} : (types.require place type).Explained := by
  unfold Declarations.require
  split
  . exact .ok _
  . exact .fail _

theorem explained_compileOperator {spelling : String} :
    (compileOperator place spelling).Explained := by
  unfold compileOperator
  split
  . exact .ok _
  . exact .fail _

theorem explained_compileRef {ref : String} : (compileRef types bound place ref).Explained := by
  unfold compileRef
  split
  . exact .fail _
  . refine .ite (.fail _) ?_
    split
    . exact .fail _
    . exact explained_require.map _

theorem explained_compileTests {type : String} {checks : List CheckSpec} :
    (compileTests types place type checks).Explained := by
  refine .all (List.forall_mem_map.mpr fun check _ => ?_)
  exact explained_compileOperator.andThen fun _ => explained_require.map _

theorem explained_compileKeys {type : String} {correlations : List (String × String)} :
    (compileKeys types bound place type correlations).Explained := by
  refine .all (List.forall_mem_map.mpr fun correlation _ => ?_)
  exact explained_compileRef.andThen fun _ => explained_require.map _

theorem explained_compileSides {left right : Option String} :
    (compileSides types bound place left right).Explained := by
  unfold compileSides
  split
  . exact (explained_compileRef.functorMap _).seq explained_compileRef
  . exact .ok _

theorem explained_compileFunction {spec : AggregateSpec} :
    (compileFunction types place spec).Explained := by
  unfold compileFunction
  split
  . exact .fail _
  . exact .ok _
  . exact .ite (.fail _) (explained_require.map _)

theorem explained_compileCondition {spec : ConditionSpec} :
    (compileCondition types bound place spec).Explained := by
  cases spec with
  | pattern spec =>
    exact explained_requireType.andThen fun _ =>
      .ite (.fail _) (explained_compileTests.map _)
  | join spec =>
    refine .ite (.fail _) (.ite (.fail _) ?_)
    refine .seq (.seq (.seq (explained_compileSides.functorMap _)
      explained_compileOperator) (.all ?_)) explained_require
    exact List.forall_mem_map.mpr fun _ _ => explained_require
  | negation spec =>
    refine explained_requireType.andThen fun _ => ?_
    exact (explained_compileTests.functorMap _).seq explained_compileKeys
  | aggregate spec =>
    refine explained_requireType.andThen fun _ => ?_
    exact ((((explained_compileFunction.functorMap _).seq explained_require).seq
      explained_compileOperator).seq explained_compileTests).seq explained_compileKeys

theorem explained_compileConditions {rule : String} {position : Nat}
    {conditions : List ConditionSpec} :
    (compileConditions types rule position bound conditions).1.Explained := by
  induction conditions generalizing position bound with
  | nil => exact .ok []
  | cons condition conditions ih => exact (explained_compileCondition.map _).apply ih

theorem explained_compileAction {spec : ActionSpec} :
    (compileAction types bound place spec).Explained := by
  unfold compileAction
  split
  . exact .ite (.fail _) (.ok _)
  . exact .ite (.fail _) (explained_requireType.andThen fun _ => .ite (.ok _) (.fail _))
  . split
    . exact .fail _
    . exact .ite (.ok _) (.ite (.fail _) (explained_require.map _))

theorem explained_compileRule {order : Int} {spec : RuleSpec} :
    (compileRule types order spec).Explained := by
  refine .seq (explained_compileConditions.functorMap _) (.map (.all ?_) _)
  exact List.forall_mem_map.mpr fun _ _ => explained_compileAction

theorem explained_compileRules {order : Nat} {seen : List String} {rules : List RuleSpec} :
    (compileRules types order seen rules).Explained := by
  induction rules generalizing order seen with
  | nil => exact .ok []
  | cons rule rules ih =>
    exact .apply (.map (.ite (.fail _) explained_compileRule) _) ih

theorem Declarations.explained_compile {specs : List FactTypeSpec} :
    (compile specs types).Explained := by
  induction specs generalizing types with
  | nil => exact .ok types
  | cons spec specs ih =>
    exact .ite (.apply (.map (.fail _) _) ih) ih

end

theorem RuleSetSpec.explained_compile {spec : RuleSetSpec} : spec.compile.Explained :=
  .seq (.functorMap Declarations.explained_compile _) explained_compileRules

instance (spec : RuleSetSpec) : Decidable spec.WellFormed :=
  decidable_of_iff _ succeeds_compile

/-- A variable can be read only behind the pattern that binds it. -/
example :
    let order := ConditionSpec.pattern { var := "o", factType := "order" }
    let billed := ConditionSpec.negation { factType := "bill", correlations := [("order", "o.id")] }
    let ruleSet (conditions : List ConditionSpec) : RuleSetSpec := {
      factTypes := [{ name := "order", fields := some ["id"] }, { name := "bill" }]
      rules := [{ name := "bill", conditions }] }
    (ruleSet [order, billed]).WellFormed ∧ ¬ (ruleSet [billed, order]).WellFormed := by
  decide +kernel

end ForwardChaining
