import ForwardChaining.Proofs.Json
import ForwardChaining.Rule.Digest

/-!
This module contains the proof that the digest of a rule set does not depend on the order of keys, at any
depth, nor on predicates and scripts.
-/

namespace ForwardChaining

open Json

namespace Value

mutual

/--
The values differ only in the order of the keys of records, at any depth. The members of a set hold no
records, since these have no hash.
-/
inductive Reordered : Value → Value → Prop where
  | same (x : Value) : Reordered x x
  | list {xs ys : List Value} (h : ReorderedItems xs ys) : Reordered (.list xs) (.list ys)
  | tuple {xs ys : List Value} (h : ReorderedItems xs ys) : Reordered (.tuple xs) (.tuple ys)
  | record {xs ys zs : List (String × Value)} (hkeys : (xs.map (·.1)).Nodup) (hperm : xs.Perm zs)
    (h : ReorderedFields zs ys) : Reordered (.record xs) (.record ys)

/-- The items differ one by one in the order of keys. -/
inductive ReorderedItems : List Value → List Value → Prop where
  | nil : ReorderedItems [] []
  | cons {x y : Value} {xs ys : List Value} (h : Reordered x y) (hs : ReorderedItems xs ys) :
    ReorderedItems (x :: xs) (y :: ys)

/-- The values of the fields differ one by one in the order of keys. -/
inductive ReorderedFields : List (String × Value) → List (String × Value) → Prop where
  | nil : ReorderedFields [] []
  | cons (key : String) {x y : Value} {xs ys : List (String × Value)} (h : Reordered x y)
    (hs : ReorderedFields xs ys) : ReorderedFields ((key, x) :: xs) ((key, y) :: ys)

end

mutual

theorem sameText_of_reordered {x y : Value} (h : Reordered x y) :
    SameText x.canonical y.canonical := by
  cases h with
  | same => exact .refl _
  | list h =>
    rw [canonical_list, canonical_list]
    exact .array (forall₂_of_reorderedItems h)
  | tuple h =>
    rw [canonical_tuple, canonical_tuple]
    exact .array (forall₂_of_reorderedItems h)
  | @record xs ys zs hkeys hperm h =>
    rw [canonical_record, canonical_record]
    apply SameText.rearranged
    refine ⟨?_, _, hperm.map _, forall₂_of_reorderedFields h⟩
    rwa [List.map_map]

theorem forall₂_of_reorderedItems {xs ys : List Value} (h : ReorderedItems xs ys) :
    List.Forall₂ SameText (xs.map canonical) (ys.map canonical) := by
  cases h with
  | nil => exact .nil
  | cons h hs => exact .cons (sameText_of_reordered h) (forall₂_of_reorderedItems hs)

theorem forall₂_of_reorderedFields {xs ys : List (String × Value)} (h : ReorderedFields xs ys) :
    List.Forall₂ (fun x y => x.1 = y.1 ∧ SameText x.2 y.2)
      (xs.map fun field => (field.1, field.2.canonical))
      (ys.map fun field => (field.1, field.2.canonical)) := by
  cases h with
  | nil => exact .nil
  | cons key h hs => exact .cons ⟨rfl, sameText_of_reordered h⟩ (forall₂_of_reorderedFields hs)

end

end Value

/-! ### Parts of rule sets -/

/-- The literal values of the operands differ only in the order of keys. -/
inductive Operand.Reordered : Operand → Operand → Prop where
  | literal {x y : Value} (h : x.Reordered y) : Reordered (.literal x) (.literal y)
  | computed (name : String) (e : Expr) : Reordered (.computed name e) (.computed name e)

/-- The checks differ only in the order of keys. -/
structure CheckSpec.Reordered (spec spec' : CheckSpec) : Prop where
  value : spec.value.Reordered spec'.value
  rest : { spec with value := spec'.value } = spec'

/-- The patterns differ only in the order of keys and in their predicates. -/
structure PatternSpec.Reordered (spec spec' : PatternSpec) : Prop where
  tests : List.Forall₂ CheckSpec.Reordered spec.tests spec'.tests
  rest : { spec with tests := spec'.tests, predicate := spec'.predicate } = spec'

/-- The joins differ only in their predicates. -/
structure JoinSpec.Reordered (spec spec' : JoinSpec) : Prop where
  rest : { spec with predicate := spec'.predicate } = spec'

/-- The negations differ only in the order of keys and in their predicates. -/
structure NegationSpec.Reordered (spec spec' : NegationSpec) : Prop where
  tests : List.Forall₂ CheckSpec.Reordered spec.tests spec'.tests
  correlations : Rearranged Eq spec.correlations spec'.correlations
  rest : { spec with
    tests := spec'.tests
    predicate := spec'.predicate
    correlations := spec'.correlations } = spec'

/-- The aggregates differ only in the order of keys and in their predicates. -/
structure AggregateSpec.Reordered (spec spec' : AggregateSpec) : Prop where
  tests : List.Forall₂ CheckSpec.Reordered spec.tests spec'.tests
  correlations : Rearranged Eq spec.correlations spec'.correlations
  threshold : spec.threshold.Reordered spec'.threshold
  rest : { spec with
    tests := spec'.tests
    predicate := spec'.predicate
    correlations := spec'.correlations
    threshold := spec'.threshold } = spec'

/-- The conditions are of one kind and differ only in the order of keys and in their predicates. -/
inductive ConditionSpec.Reordered : ConditionSpec → ConditionSpec → Prop where
  | pattern {spec spec' : PatternSpec} (h : spec.Reordered spec') :
    Reordered (.pattern spec) (.pattern spec')
  | join {spec spec' : JoinSpec} (h : spec.Reordered spec') : Reordered (.join spec) (.join spec')
  | negation {spec spec' : NegationSpec} (h : spec.Reordered spec') :
    Reordered (.negation spec) (.negation spec')
  | aggregate {spec spec' : AggregateSpec} (h : spec.Reordered spec') :
    Reordered (.aggregate spec) (.aggregate spec')

/-- The actions differ only in the order of keys. -/
structure ActionSpec.Reordered (spec spec' : ActionSpec) : Prop where
  value : spec.value.Reordered spec'.value
  data : Rearranged Operand.Reordered spec.data spec'.data
  rest : { spec with value := spec'.value, data := spec'.data } = spec'

/-- The rules differ only in the order of keys, in their predicates and in their scripts. -/
structure RuleSpec.Reordered (spec spec' : RuleSpec) : Prop where
  conditions : List.Forall₂ ConditionSpec.Reordered spec.conditions spec'.conditions
  actions : List.Forall₂ ActionSpec.Reordered spec.actions spec'.actions
  rest : { spec with
    conditions := spec'.conditions
    actions := spec'.actions
    script := spec'.script } = spec'

/-- The rule sets differ only in the order of keys, in predicates and in scripts. -/
structure RuleSetSpec.Reordered (spec spec' : RuleSetSpec) : Prop where
  rules : List.Forall₂ RuleSpec.Reordered spec.rules spec'.rules
  rest : { spec with rules := spec'.rules } = spec'

/-! ### Their texts -/

theorem Operand.sameText_of_reordered {x y : Operand} (h : x.Reordered y) :
    SameText x.canonical y.canonical := by
  cases h with
  | literal h => exact Value.sameText_of_reordered h
  | computed => exact .refl _

theorem CheckSpec.sameText_of_reordered {spec spec' : CheckSpec} (h : spec.Reordered spec') :
    SameText spec.canonical spec'.canonical := by
  obtain ⟨hvalue, hrest⟩ := h
  cases spec
  cases spec'
  cases hrest
  apply SameText.object
  simp [Value.sameText_of_reordered hvalue]

theorem sameText_checks {specs specs' : List CheckSpec}
    (h : List.Forall₂ CheckSpec.Reordered specs specs') :
    SameText (.array (specs.map (·.canonical))) (.array (specs'.map (·.canonical))) :=
  .array_map (h.imp fun _ _ => CheckSpec.sameText_of_reordered)

theorem sameText_correlations {xs ys : List (String × String)} (h : Rearranged Eq xs ys) :
    SameText (canonicalCorrelations xs) (canonicalCorrelations ys) :=
  .rearranged (h.map fun _ _ heq => heq ▸ .refl _)

theorem ConditionSpec.sameText_of_reordered {spec spec' : ConditionSpec} (h : spec.Reordered spec') :
    SameText spec.canonical spec'.canonical := by
  cases h with
  | @pattern spec spec' h =>
    obtain ⟨htests, hrest⟩ := h
    cases spec
    cases spec'
    cases hrest
    apply SameText.object
    simp [sameText_checks htests]
  | @join spec spec' h =>
    cases spec
    cases spec'
    cases h.rest
    exact .refl _
  | @negation spec spec' h =>
    obtain ⟨htests, hcorrelations, hrest⟩ := h
    cases spec
    cases spec'
    cases hrest
    apply SameText.object
    simp [sameText_checks htests, sameText_correlations hcorrelations]
  | @aggregate spec spec' h =>
    obtain ⟨htests, hcorrelations, hthreshold, hrest⟩ := h
    cases spec
    cases spec'
    cases hrest
    apply SameText.object
    simp [sameText_checks htests, sameText_correlations hcorrelations,
      Value.sameText_of_reordered hthreshold]

theorem ActionSpec.sameText_of_reordered {spec spec' : ActionSpec} (h : spec.Reordered spec') :
    SameText spec.canonical spec'.canonical := by
  obtain ⟨hvalue, hdata, hrest⟩ := h
  have hobject : SameText (.object (spec.data.map fun entry => (entry.1, entry.2.canonical)))
      (.object (spec'.data.map fun entry => (entry.1, entry.2.canonical))) :=
    .rearranged (hdata.map (f := Operand.canonical) (g := Operand.canonical)
      fun _ _ => Operand.sameText_of_reordered)
  cases spec
  cases spec'
  cases hrest
  apply SameText.object
  simp [Operand.sameText_of_reordered hvalue, hobject]

theorem RuleSpec.sameText_of_reordered {spec spec' : RuleSpec} (h : spec.Reordered spec') :
    SameText spec.canonical spec'.canonical := by
  obtain ⟨hconditions, hactions, hrest⟩ := h
  have hconditions : SameText (.array (spec.conditions.map (·.canonical)))
      (.array (spec'.conditions.map (·.canonical))) :=
    .array_map (hconditions.imp fun _ _ => ConditionSpec.sameText_of_reordered)
  have hactions : SameText (.array (spec.actions.map (·.canonical)))
      (.array (spec'.actions.map (·.canonical))) :=
    .array_map (hactions.imp fun _ _ => ActionSpec.sameText_of_reordered)
  cases spec
  cases spec'
  cases hrest
  apply SameText.object
  simp [hconditions, hactions]

theorem RuleSetSpec.sameText_of_reordered {spec spec' : RuleSetSpec} (h : spec.Reordered spec') :
    SameText spec.canonical spec'.canonical := by
  obtain ⟨hrules, hrest⟩ := h
  have hrules : SameText (.array (spec.rules.map (·.canonical)))
      (.array (spec'.rules.map (·.canonical))) :=
    .array_map (hrules.imp fun _ _ => RuleSpec.sameText_of_reordered)
  cases spec
  cases spec'
  cases hrest
  apply SameText.object
  simp [hrules]

/--
Rule sets that differ only in the order of keys, in predicates and in scripts have the same text, and so
the same digest.
-/
theorem digest_reordered {spec spec' : RuleSetSpec} (h : spec.Reordered spec') :
    spec.digestText = spec'.digestText ∧ spec.digest = spec'.digest := by
  have htext : spec.digestText = spec'.digestText := RuleSetSpec.sameText_of_reordered h
  exact ⟨htext, by rw [RuleSetSpec.digest, RuleSetSpec.digest, htext]⟩

/-- A rule set with records wherever it may hold some. -/
def shippingSpec (terms : Value) (correlations : List (String × String))
    (data : List (String × Operand)) (predicate script : Option Callable) : RuleSetSpec where
  factTypes := [{ name := "order" }, { name := "hold" }, { name := "note" }]
  rules := [{
    name := "ship"
    conditions := [
      .pattern {
        var := "o"
        factType := "order"
        tests := [{ field := "terms", operator := "in", value := .list [terms] }]
        predicate },
      .negation { factType := "hold", correlations }]
    actions := [{ kind := .insert, factType := some "note", data }]
    script }]

theorem digest_reordered_shipping :
    let spec := shippingSpec
      (.record [("days", .int 30), ("late", .record [("fee", .int 5), ("cap", .int 50)])])
      [("customer", "o.customer"), ("order", "o.id")]
      [("text", .literal (.text "late")), ("days", .literal (.int 3))] none none
    let spec' := shippingSpec
      (.record [("late", .record [("cap", .int 50), ("fee", .int 5)]), ("days", .int 30)])
      [("order", "o.id"), ("customer", "o.customer")]
      [("days", .literal (.int 3)), ("text", .literal (.text "late"))]
      (some ⟨0, "large", .predicate (.lit (.bool true))⟩) (some ⟨1, "send", .script []⟩)
    spec.Reordered spec' ∧ spec.digestText = spec'.digestText ∧ spec.digest = spec'.digest := by
  intro spec spec'
  have hlate : Value.Reordered (.record [("fee", .int 5), ("cap", .int 50)])
      (.record [("cap", .int 50), ("fee", .int 5)]) :=
    .record (by decide) (.swap ..) (.cons _ (.same _) (.cons _ (.same _) .nil))
  have hterms : Value.Reordered
      (.record [("days", .int 30), ("late", .record [("fee", .int 5), ("cap", .int 50)])])
      (.record [("late", .record [("cap", .int 50), ("fee", .int 5)]), ("days", .int 30)]) :=
    .record (by decide) (.swap ..) (.cons _ hlate (.cons _ (.same _) .nil))
  have hdata : Rearranged Operand.Reordered
      [("text", .literal (.text "late")), ("days", .literal (.int 3))]
      [("days", .literal (.int 3)), ("text", .literal (.text "late"))] :=
    ⟨by decide, _, .swap .., .cons ⟨rfl, .literal (.same _)⟩ (.cons ⟨rfl, .literal (.same _)⟩ .nil)⟩
  have hcorrelations : Rearranged Eq [("customer", "o.customer"), ("order", "o.id")]
      [("order", "o.id"), ("customer", "o.customer")] :=
    .of_perm (by decide) (.swap ..)
  have hreordered : spec.Reordered spec' := by
    refine ⟨.cons ⟨.cons (.pattern ⟨?_, rfl⟩) (.cons (.negation ⟨.nil, hcorrelations, rfl⟩) .nil),
      .cons ⟨.literal (.same _), hdata, rfl⟩ .nil, rfl⟩ .nil, rfl⟩
    exact .cons ⟨.list (.cons hterms .nil), rfl⟩ .nil
  exact ⟨hreordered, digest_reordered hreordered⟩

end ForwardChaining
