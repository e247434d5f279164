import ForwardChaining.Proofs.Rule.Compile
import Mathlib.Data.List.TakeWhile

/-!
This module contains what it is for the specification of a rule set to be well formed, said without the
compiler, and how the compiler finds what a specification names: declarations, operators, functions and
fields of bound variables.

A variable stands for a fact from the pattern on that binds it. So a condition is judged against the
variables of the patterns before it, and the actions of a rule against those of all its patterns.
-/

namespace ForwardChaining

/-! ### Well-formed specifications -/

namespace FactTypeSpec

/-- A type of the name is declared. -/
def Declared (types : List FactTypeSpec) (type : String) : Prop :=
  type ∈ types.map (·.name)

/-- No declaration of the type closes it without the field. -/
def Permits (types : List FactTypeSpec) (type field : String) : Prop :=
  ∀ spec ∈ types, spec.name = type → ∀ fields, spec.fields = some fields → field ∈ fields

end FactTypeSpec

open FactTypeSpec (Declared Permits)

/-- An operator is meant: by its canonical name, or by one of its spellings in any case. -/
def Operator.Known (spelling : String) : Prop :=
  ∃ op : Operator, spelling = op.name
    ∨ (Text.lower (Text.stripBy Text.isSpace spelling), op) ∈ Operator.spellings

/-- A text is a variable and a field of the fact that it is bound to, with a point between them. -/
def Bound.Refers (types : List FactTypeSpec) (bound : Bound) (ref : String) : Prop :=
  ∃ var field type, ref = var ++ "." ++ field ∧ '.' ∉ var.toList ∧ var ≠ "" ∧ field ≠ ""
    ∧ (var, type) ∈ bound ∧ Permits types type field

/-- The fields of correlations belong to the type, and their references to bound variables. -/
def Bound.Correlates (types : List FactTypeSpec) (bound : Bound) (type : String)
    (correlations : List (String × String)) : Prop :=
  ∀ correlation ∈ correlations,
    bound.Refers types correlation.2 ∧ Permits types type correlation.1

structure CheckSpec.WellFormed (types : List FactTypeSpec) (type : String) (spec : CheckSpec) :
    Prop where
  operator : Operator.Known spec.operator
  field : Permits types type spec.field

structure PatternSpec.WellFormed (types : List FactTypeSpec) (bound : Bound) (spec : PatternSpec) :
    Prop where
  type : Declared types spec.factType
  var : spec.var ∉ bound.map (·.1)
  tests : ∀ check ∈ spec.tests, check.WellFormed types spec.factType

structure JoinSpec.WellFormed (types : List FactTypeSpec) (bound : Bound) (spec : JoinSpec) :
    Prop where
  /-- There are two sides, or none and a predicate. -/
  sides : spec.left.isSome = spec.right.isSome
  purpose : spec.left = none → spec.predicate ≠ none
  left : ∀ ref, spec.left = some ref → bound.Refers types ref
  right : ∀ ref, spec.right = some ref → bound.Refers types ref
  operator : Operator.Known spec.operator
  vars : ∀ var ∈ spec.vars, var ∈ bound.map (·.1)
  predicate : spec.predicate ≠ none → spec.vars ≠ []

structure NegationSpec.WellFormed (types : List FactTypeSpec) (bound : Bound)
    (spec : NegationSpec) : Prop where
  type : Declared types spec.factType
  tests : ∀ check ∈ spec.tests, check.WellFormed types spec.factType
  correlations : bound.Correlates types spec.factType spec.correlations

structure AggregateSpec.WellFormed (types : List FactTypeSpec) (bound : Bound)
    (spec : AggregateSpec) : Prop where
  type : Declared types spec.factType
  /-- All functions but the count need a field. -/
  function : ∃ f : AggregateFunction, Text.lower spec.function = f.name
    ∧ (f ≠ .count → ∃ field, spec.field = some field ∧ field ≠ "" ∧ Permits types spec.factType field)
  bind : ∀ name, spec.bind = some name → name ∉ bound.map (·.1)
  operator : Operator.Known spec.operator
  tests : ∀ check ∈ spec.tests, check.WellFormed types spec.factType
  correlations : bound.Correlates types spec.factType spec.correlations

namespace ConditionSpec

/-- A condition fits behind the patterns that bind some variables. -/
def WellFormed (types : List FactTypeSpec) (bound : Bound) : ConditionSpec → Prop
  | .pattern spec => spec.WellFormed types bound
  | .join spec => spec.WellFormed types bound
  | .negation spec => spec.WellFormed types bound
  | .aggregate spec => spec.WellFormed types bound

/-- The variable that a condition binds, with the type of its fact. -/
def binding? : ConditionSpec → Option (String × String)
  | .pattern spec => some (spec.var, spec.factType)
  | _ => none

/-- The variables that conditions bind. -/
def bindings (specs : List ConditionSpec) : Bound :=
  specs.filterMap (·.binding?)

end ConditionSpec

/-- What a declarative action names is there. -/
def ActionSpec.WellFormed (types : List FactTypeSpec) (bound : Bound) (spec : ActionSpec) : Prop :=
  match spec.kind with
  | .explain => ∃ text, spec.text = some text ∧ text ≠ ""
  | .insert => ∃ type, spec.factType = some type ∧ type ≠ "" ∧ Declared types type
    ∧ ∀ entry ∈ spec.data, Permits types type entry.1
  | .retract => ∃ var, spec.target = some var ∧ var ∈ bound.map (·.1)
  | .set | .append => ∃ var type field, spec.target = some var ∧ (var, type) ∈ bound
    ∧ spec.field = some field ∧ field ≠ "" ∧ Permits types type field

structure RuleSpec.WellFormed (types : List FactTypeSpec) (spec : RuleSpec) : Prop where
  conditions : ∀ before condition after, spec.conditions = before ++ condition :: after →
    condition.WellFormed types (ConditionSpec.bindings before)
  actions : ∀ action ∈ spec.actions,
    action.WellFormed types (ConditionSpec.bindings spec.conditions)

structure RuleSetSpec.WellFormed (spec : RuleSetSpec) : Prop where
  types : (spec.factTypes.map (·.name)).Nodup
  names : (spec.rules.map (·.name)).Nodup
  rules : ∀ rule ∈ spec.rules, rule.WellFormed spec.factTypes

/-! ### Declarations and spellings -/

namespace Declarations

/-- A declaration as it is compiled. -/
def ofSpec (spec : FactTypeSpec) : FactType :=
  ⟨spec.name, spec.fields, spec.description⟩

theorem find_isSome {types : Declarations} {type : String} :
    (find types type).isSome ↔ type ∈ types.map (·.name) := by
  simp [find, List.find?_isSome]

theorem succeeds_compile {specs : List FactTypeSpec} {types : Declarations} :
    (compile specs types).Succeeds ↔
      (specs.map (·.name)).Nodup ∧ ∀ spec ∈ specs, spec.name ∉ types.map (·.name) := by
  induction specs generalizing types with
  | nil => simp [compile]
  | cons spec specs ih =>
    rw [compile, List.map_cons, List.nodup_cons, List.forall_mem_cons]
    split
    . next hfound =>
      have hdeclared := find_isSome.mp hfound
      simp [Compiled.defect, hdeclared]
    . next hnew =>
      rw [find_isSome] at hnew
      simp only [ih, List.map_append, List.map_cons, List.map_nil, List.mem_append,
        List.mem_singleton, not_or, hnew, not_false_eq_true, true_and, List.mem_map, not_exists,
        not_and]
      constructor
      . rintro ⟨hnodup, hapart⟩
        exact ⟨⟨fun other hother => (hapart other hother).2, hnodup⟩,
          fun other hother => (hapart other hother).1⟩
      . rintro ⟨⟨hfresh, hnodup⟩, hapart⟩
        exact ⟨hnodup, fun other hother => ⟨hapart other hother, hfresh other hother⟩⟩

theorem ofSpecs_eq {specs : List FactTypeSpec} (h : (specs.map (·.name)).Nodup) :
    ofSpecs specs = specs.map ofSpec := by
  suffices hfold : ∀ types : Declarations, (∀ spec ∈ specs, spec.name ∉ types.map (·.name)) →
      specs.foldl (fun types spec =>
        if (find types spec.name).isSome then types
        else types ++ [⟨spec.name, spec.fields, spec.description⟩]) types
      = types ++ specs.map ofSpec by
    exact hfold [] (by simp)
  induction specs with
  | nil => simp
  | cons spec specs ih =>
    intro types hapart
    rw [List.map_cons, List.nodup_cons] at h
    rw [List.forall_mem_cons] at hapart
    rw [List.foldl_cons, if_neg (mt find_isSome.mp hapart.1), ih h.2]
    . simp [ofSpec]
    . intro other hother
      rw [List.map_append, List.mem_append, not_or]
      refine ⟨hapart.2 other hother, ?_⟩
      simp only [List.map_cons, List.map_nil, List.mem_singleton]
      exact fun heq => h.1 (List.mem_map.mpr ⟨other, hother, heq⟩)

section

variable {specs : List FactTypeSpec} (hspecs : (specs.map (·.name)).Nodup)

include hspecs

theorem find_ofSpecs {type : String} :
    ((ofSpecs specs).find type).isSome ↔ Declared specs type := by
  rw [ofSpecs_eq hspecs, find_isSome, List.map_map]
  rfl

theorem hasField_ofSpecs {type field : String} :
    (ofSpecs specs).hasField type field ↔ Permits specs type field := by
  rw [ofSpecs_eq hspecs]
  induction specs with
  | nil => simp [hasField, find, Permits]
  | cons spec specs ih =>
    rw [List.map_cons, List.nodup_cons] at hspecs
    simp only [Permits, List.forall_mem_cons]
    by_cases heq : spec.name = type
    . have hfirst : find (ofSpec spec :: specs.map ofSpec) type = some (ofSpec spec) :=
        List.find?_cons_of_pos (by simp [ofSpec, heq])
      have hrest : ∀ other ∈ specs, other.name ≠ type := fun other hother hname =>
        hspecs.1 (List.mem_map.mpr ⟨other, hother, hname.trans heq.symm⟩)
      rw [List.map_cons, hasField, hfirst]
      cases hfields : spec.fields <;> simp +contextual [ofSpec, heq, hfields, hrest]
    . have hlater : find ((spec :: specs).map ofSpec) type = find (specs.map ofSpec) type := by
        simp [find, ofSpec, heq]
      simp only [heq, false_implies, true_and]
      rw [hasField, hlater]
      exact ih hspecs.2

end

theorem require_eq_ok {types : Declarations} {place type : String} {declared : FactType} :
    types.require place type = .ok declared ↔ types.find type = some declared := by
  unfold require
  cases types.find type <;> simp [Compiled.defect]

theorem succeeds_require {types : Declarations} {place type : String} :
    (types.require place type).Succeeds ↔ (types.find type).isSome := by
  unfold require
  cases types.find type <;> simp [Compiled.defect]

end Declarations

theorem Declarations.hasField_of_find {types : Declarations} {type : String} {declared : FactType}
    (h : types.find type = some declared) (field : String) :
    types.hasField type field = declared.accepts (.text field) := by
  rw [hasField, h]
  cases hfields : declared.fields <;> simp [FactType.accepts, hfields]

theorem FactType.isEmpty_undeclared {type : FactType} {names : List String} :
    (type.undeclared names).isEmpty ↔ ∀ name ∈ names, type.accepts (.text name) = true := by
  rw [undeclared, List.isEmpty_iff_length_eq_zero, List.length_mergeSort, List.length_eq_zero_iff,
    List.filter_eq_nil_iff]
  simp

namespace Compiled

@[simp]
theorem not_succeeds_defect {place message : String} :
    ¬ (defect place message : Compiled α).Succeeds :=
  Checked.not_succeeds_fail

@[simp]
theorem succeeds_require {holds : Bool} {place message : String} :
    (require holds place message).Succeeds ↔ holds = true := by
  cases holds <;> simp [require]

end Compiled

namespace Operator

theorem ofName?_isSome {s : String} : (ofName? s).isSome ↔ ∃ op : Operator, s = op.name := by
  rw [ofName?, List.find?_isSome]
  constructor
  . rintro ⟨op, -, heq⟩
    exact ⟨op, (beq_iff_eq.mp heq).symm⟩
  . rintro ⟨op, rfl⟩
    exact ⟨op, by cases op <;> simp [all], by simp⟩

theorem lookup_spellings_isSome {s : String} :
    (spellings.lookup s).isSome ↔ ∃ op, (s, op) ∈ spellings := by
  rw [List.lookup_isSome_iff]
  constructor
  . rintro ⟨⟨spelling, op⟩, hmem, heq⟩
    obtain rfl := beq_iff_eq.mp heq
    exact ⟨op, hmem⟩
  . rintro ⟨op, hmem⟩
    exact ⟨_, hmem, beq_self_eq_true s⟩

theorem succeeds_compileOperator {place spelling : String} :
    (compileOperator place spelling).Succeeds ↔ Known spelling := by
  have hmeant : (ofSpelling? spelling).isSome ↔ Known spelling := by
    rw [ofSpelling?, Option.isSome_or, Bool.or_eq_true, ofName?_isSome, lookup_spellings_isSome,
      ← exists_or]
    rfl
  rw [← hmeant, compileOperator]
  cases ofSpelling? spelling <;> simp

end Operator

namespace AggregateFunction

theorem ofName?_eq_some {s : String} {f : AggregateFunction} :
    ofName? s = some f ↔ s = f.name := by
  constructor
  . intro h
    rw [ofName?] at h
    have hname := List.find?_some h
    exact (beq_iff_eq.mp hname).symm
  . rintro rfl
    cases f <;> rfl

end AggregateFunction

/-! ### Bound variables and references -/

theorem Bound.target_eq_some {bound : Bound} (h : (bound.map (·.1)).Nodup) {target : Option String}
    {var type : String} :
    (target.bind fun var => (bound.lookup var).map (var, ·)) = some (var, type)
      ↔ target = some var ∧ (var, type) ∈ bound := by
  simp only [← lookup_eq_some_iff_mem h, Option.bind_eq_some_iff, Option.map_eq_some_iff,
    Prod.mk.injEq]
  constructor
  . rintro ⟨name, htarget, type, hlookup, rfl, rfl⟩
    exact ⟨htarget, hlookup⟩
  . rintro ⟨htarget, hlookup⟩
    exact ⟨var, htarget, type, hlookup, rfl, rfl⟩

theorem Text.cut?_append {c : Char} {before : String} (h : c ∉ before.toList) (after : String) :
    Text.cut? c (before ++ c.toString ++ after) = some (before, after) := by
  have hbefore : ∀ d ∈ before.toList, (d != c) = true := by
    intro d hd
    rw [bne_iff_ne]
    rintro rfl
    exact h hd
  have hlist : (before ++ c.toString ++ after).toList = before.toList ++ c :: after.toList := by
    simp
  rw [Text.cut?, hlist, List.span_eq_takeWhile_dropWhile,
    List.takeWhile_append_of_pos hbefore, List.dropWhile_append_of_pos hbefore]
  simp

theorem Text.cut?_eq_none {c : Char} {s : String} (h : c ∉ s.toList) : Text.cut? c s = none := by
  have hall : ∀ d ∈ s.toList, (d != c) = true := by
    intro d hd
    rw [bne_iff_ne]
    rintro rfl
    exact h hd
  have hnil : s.toList.dropWhile (· != c) = [] := List.dropWhile_eq_nil_iff.mpr hall
  rw [Text.cut?, List.span_eq_takeWhile_dropWhile, hnil]

theorem Text.cut?_eq_some {c : Char} {s before after : String} :
    Text.cut? c s = some (before, after) ↔
      s = before ++ c.toString ++ after ∧ c ∉ before.toList := by
  constructor
  . intro h
    by_cases hc : c ∈ s.toList
    . obtain ⟨front, back, hs, hfront⟩ := List.eq_append_cons_of_mem hc
      obtain rfl : s = String.ofList front ++ c.toString ++ String.ofList back := by
        rw [← String.toList_inj, hs]
        simp
      rw [Text.cut?_append (by simpa using hfront)] at h
      cases h
      exact ⟨rfl, by simpa using hfront⟩
    . rw [Text.cut?_eq_none hc] at h
      cases h
  . rintro ⟨rfl, hbefore⟩
    exact Text.cut?_append hbefore after

theorem Bound.refers_iff {specs : List FactTypeSpec} {bound : Bound} {ref : String} :
    bound.Refers specs ref ↔ ∃ var field, Text.cut? '.' ref = some (var, field)
      ∧ var ≠ "" ∧ field ≠ "" ∧ ∃ type, (var, type) ∈ bound ∧ Permits specs type field := by
  have hpoint : '.'.toString = "." := rfl
  simp only [Text.cut?_eq_some, hpoint]
  constructor
  . rintro ⟨var, field, type, href, hdot, hvar, hfield, hbound, hpermits⟩
    exact ⟨var, field, ⟨href, hdot⟩, hvar, hfield, type, hbound, hpermits⟩
  . rintro ⟨var, field, ⟨href, hdot⟩, hvar, hfield, type, hbound, hpermits⟩
    exact ⟨var, field, type, href, hdot, hvar, hfield, hbound, hpermits⟩

end ForwardChaining
