import ForwardChaining.Proofs.Value.Content

/-!
This module contains which rule sets have one digest text: those that are the same once each value is
taken as its text tells it, up to the order of keys.
-/

namespace ForwardChaining

open Json

/-! ### Rule sets as their texts tell them -/

def Operand.blurred : Operand → Operand
  | .literal x => .literal x.blurred
  | .computed name e => .computed name e

def CheckSpec.blurred (spec : CheckSpec) : CheckSpec :=
  { spec with value := spec.value.blurred }

def ConditionSpec.blurred : ConditionSpec → ConditionSpec
  | .pattern spec => .pattern { spec with tests := spec.tests.map (·.blurred) }
  | .join spec => .join spec
  | .negation spec => .negation { spec with tests := spec.tests.map (·.blurred) }
  | .aggregate spec =>
    .aggregate { spec with
      tests := spec.tests.map (·.blurred)
      threshold := spec.threshold.blurred }

def ActionSpec.blurred (spec : ActionSpec) : ActionSpec :=
  { spec with
    value := spec.value.blurred
    data := spec.data.map fun entry => (entry.1, entry.2.blurred) }

def RuleSpec.blurred (spec : RuleSpec) : RuleSpec :=
  { spec with
    conditions := spec.conditions.map (·.blurred)
    actions := spec.actions.map (·.blurred) }

/-- The rule set with each value as its canonical text tells it. -/
def RuleSetSpec.blurred (spec : RuleSetSpec) : RuleSetSpec :=
  { spec with rules := spec.rules.map (·.blurred) }

theorem Operand.sameText_blurred (x : Operand) : SameText x.canonical x.blurred.canonical := by
  cases x with
  | literal x => exact Value.sameText_blurred x
  | computed name e => exact .refl _

theorem sameText_map_blurred {canonical : α → Json} {blurred : α → α}
    (h : ∀ x, SameText (canonical x) (canonical (blurred x))) (xs : List α) :
    SameText (.array (xs.map canonical)) (.array ((xs.map blurred).map canonical)) := by
  rw [List.map_map, SameText.array_map_iff]
  exact List.forall₂_same.mpr fun x _ => h x

theorem CheckSpec.sameText_blurred (spec : CheckSpec) :
    SameText spec.canonical spec.blurred.canonical := by
  apply SameText.object
  simp [CheckSpec.blurred, Value.sameText_blurred]

theorem ConditionSpec.sameText_blurred (spec : ConditionSpec) :
    SameText spec.canonical spec.blurred.canonical := by
  have hchecks := sameText_map_blurred CheckSpec.sameText_blurred
  cases spec with
  | join spec => exact .refl _
  | pattern spec =>
    apply SameText.object
    simpa using hchecks spec.tests
  | negation spec =>
    apply SameText.object
    simpa using hchecks spec.tests
  | aggregate spec =>
    apply SameText.object
    simpa [Value.sameText_blurred] using hchecks spec.tests

theorem ActionSpec.sameText_blurred (spec : ActionSpec) :
    SameText spec.canonical spec.blurred.canonical := by
  have hdata : SameText (.object (spec.data.map fun entry => (entry.1, entry.2.canonical)))
      (.object (spec.blurred.data.map fun entry => (entry.1, entry.2.canonical))) := by
    apply SameText.object
    rw [ActionSpec.blurred, List.map_map, List.forall₂_map_left_iff, List.forall₂_map_right_iff]
    exact List.forall₂_same.mpr fun entry _ => ⟨rfl, Operand.sameText_blurred entry.2⟩
  apply SameText.object
  simpa [ActionSpec.blurred, Operand.sameText_blurred] using hdata

theorem RuleSpec.sameText_blurred (spec : RuleSpec) :
    SameText spec.canonical spec.blurred.canonical := by
  have hconditions := sameText_map_blurred ConditionSpec.sameText_blurred spec.conditions
  have hactions := sameText_map_blurred ActionSpec.sameText_blurred spec.actions
  apply SameText.object
  simpa [RuleSpec.blurred] using And.intro hconditions hactions

theorem RuleSetSpec.sameText_blurred (spec : RuleSetSpec) :
    SameText spec.canonical spec.blurred.canonical := by
  apply SameText.object
  simpa [RuleSetSpec.blurred] using sameText_map_blurred RuleSpec.sameText_blurred spec.rules

/-! ### What rule sets declare -/

section Declares

variable (P : Value → Prop)

/-- The operand is a value with the property. -/
def Operand.Declares : Operand → Prop
  | .literal x => P x
  | .computed .. => False

/-- The values of the condition have the property, and its correlations have distinct keys. -/
def ConditionSpec.Declares : ConditionSpec → Prop
  | .pattern spec => ∀ test ∈ spec.tests, P test.value
  | .join _ => True
  | .negation spec => (∀ test ∈ spec.tests, P test.value) ∧ (spec.correlations.map (·.1)).Nodup
  | .aggregate spec =>
    (∀ test ∈ spec.tests, P test.value) ∧ (spec.correlations.map (·.1)).Nodup ∧ P spec.threshold

/-- The values of the action have the property, and its data have distinct keys. -/
structure ActionSpec.Declares (spec : ActionSpec) : Prop where
  value : spec.value.Declares P
  keys : (spec.data.map (·.1)).Nodup
  data : ∀ entry ∈ spec.data, entry.2.Declares P

structure RuleSpec.Declares (spec : RuleSpec) : Prop where
  conditions : ∀ condition ∈ spec.conditions, condition.Declares P
  actions : ∀ action ∈ spec.actions, action.Declares P

/-- All values of the rule set are declared as such and have the property; none is computed. -/
def RuleSetSpec.Declares (spec : RuleSetSpec) : Prop :=
  ∀ rule ∈ spec.rules, rule.Declares P

end Declares

theorem Operand.Declares.blurred {x : Operand} (h : x.Declares Value.Written) :
    x.blurred.Declares Value.Told := by
  cases x with
  | literal x => exact Value.Written.told_blurred h
  | computed name e => exact h

theorem ConditionSpec.Declares.blurred {spec : ConditionSpec} (h : spec.Declares Value.Written) :
    spec.blurred.Declares Value.Told := by
  have htests : ∀ {tests : List CheckSpec}, (∀ test ∈ tests, test.value.Written) →
      ∀ test ∈ tests.map (·.blurred), test.value.Told :=
    fun htests => List.forall_mem_map.mpr fun test htest => (htests test htest).told_blurred
  cases spec with
  | pattern spec => exact htests h
  | join spec => exact h
  | negation spec => exact ⟨htests h.1, h.2⟩
  | aggregate spec => exact ⟨htests h.1, h.2.1, h.2.2.told_blurred⟩

theorem ActionSpec.Declares.blurred {spec : ActionSpec} (h : spec.Declares Value.Written) :
    spec.blurred.Declares Value.Told where
  value := h.value.blurred
  keys := by
    rw [ActionSpec.blurred, List.map_map]
    exact h.keys
  data := List.forall_mem_map.mpr fun entry hentry => (h.data entry hentry).blurred

theorem RuleSpec.Declares.blurred {spec : RuleSpec} (h : spec.Declares Value.Written) :
    spec.blurred.Declares Value.Told where
  conditions := List.forall_mem_map.mpr fun x hx => (h.conditions x hx).blurred
  actions := List.forall_mem_map.mpr fun x hx => (h.actions x hx).blurred

theorem RuleSetSpec.Declares.blurred {spec : RuleSetSpec} (h : spec.Declares Value.Written) :
    spec.blurred.Declares Value.Told :=
  List.forall_mem_map.mpr fun rule hrule => (h rule hrule).blurred

/-! ### Texts that tell the rule set -/

@[simp]
theorem sameText_optionalText_iff {s t : Option String} :
    SameText (optionalText s) (optionalText t) ↔ s = t := by
  refine ⟨fun h => ?_, fun h => h ▸ .refl _⟩
  cases s <;> cases t
  . rfl
  . cases h.shape
  . obtain ⟨t, htext⟩ := h.shape
    cases htext
  . rw [SameText.text_iff.mp h]

theorem sameText_texts_iff {xs ys : List String} : SameText (texts xs) (texts ys) ↔ xs = ys := by
  rw [texts, texts, SameText.array_map_iff]
  simp

theorem FactTypeSpec.eq_of_sameText {spec spec' : FactTypeSpec}
    (h : SameText spec.canonical spec'.canonical) : spec = spec' := by
  obtain ⟨name, fields, description⟩ := spec
  obtain ⟨name', fields', description'⟩ := spec'
  have hmembers := h.lookup (by simp) (by simp)
  cases fields with
  | none =>
    cases fields' with
    | none => simpa [List.lookup_cons] using hmembers
    | some fields' =>
      have hfields : SameText .null (texts fields') := by
        simpa [List.lookup_cons] using hmembers ("fields", .null) (by simp)
      cases hfields.shape
  | some fields =>
    cases fields' with
    | none =>
      have hfields : SameText (texts fields) .null := by
        simpa [List.lookup_cons] using hmembers ("fields", texts fields) (by simp)
      obtain ⟨items, hitems⟩ := hfields.shape
      cases hitems
    | some fields' => simpa [List.lookup_cons, sameText_texts_iff] using hmembers

theorem Operand.reordered_of_sameText {x y : Operand} (hx : x.Declares Value.Told)
    (hy : y.Declares Value.Told) (h : SameText x.canonical y.canonical) : x.Reordered y := by
  cases x with
  | computed name e => cases hx
  | literal x =>
    cases y with
    | computed name e => cases hy
    | literal y => exact .literal (Value.Told.reordered_of_sameText hx hy h)

theorem CheckSpec.reordered_of_sameText {spec spec' : CheckSpec} (hd : spec.value.Told)
    (hd' : spec'.value.Told) (h : SameText spec.canonical spec'.canonical) :
    spec.Reordered spec' := by
  obtain ⟨hfield, hoperator, hvalue⟩ : spec.field = spec'.field ∧ spec.operator = spec'.operator
      ∧ SameText spec.value.canonical spec'.value.canonical := by
    simpa [List.lookup_cons] using h.lookup (by simp) (by simp)
  exact ⟨hd.reordered_of_sameText hd' hvalue, by rw [hfield, hoperator]⟩

theorem reordered_checks {tests tests' : List CheckSpec} (hd : ∀ test ∈ tests, test.value.Told)
    (hd' : ∀ test ∈ tests', test.value.Told)
    (h : SameText (.array (tests.map (·.canonical))) (.array (tests'.map (·.canonical)))) :
    List.Forall₂ CheckSpec.Reordered tests tests' :=
  h.forall₂_of_array fun x hx y hy => CheckSpec.reordered_of_sameText (hd x hx) (hd' y hy)

theorem rearranged_correlations {xs ys : List (String × String)} (hkeys : (xs.map (·.1)).Nodup)
    (h : SameText (canonicalCorrelations xs) (canonicalCorrelations ys)) : Rearranged Eq xs ys :=
  h.rearranged_of_object hkeys fun _ _ _ _ heq => SameText.text_iff.mp heq

theorem kind_eq_of_sameText {kind kind' : String} {xs ys : List (String × Json)}
    (hxs : ("kind" :: xs.map (·.1)).Nodup) (hys : ("kind" :: ys.map (·.1)).Nodup)
    (h : SameText (.object (("kind", .text kind) :: xs)) (.object (("kind", .text kind') :: ys))) :
    kind = kind' := by
  obtain ⟨y, hy, htext⟩ := h.lookup hxs hys _ List.mem_cons_self
  rw [List.lookup_cons_self, Option.some.injEq] at hy
  rw [← hy] at htext
  exact SameText.text_iff.mp htext

theorem ConditionSpec.reordered_of_sameText {spec spec' : ConditionSpec}
    (hd : spec.Declares Value.Told) (hd' : spec'.Declares Value.Told)
    (h : SameText spec.canonical spec'.canonical) : spec.Reordered spec' := by
  cases spec with
  | pattern spec =>
    cases spec' with
    | pattern spec' =>
      obtain ⟨hvar, htype, htests⟩ : spec.var = spec'.var ∧ spec.factType = spec'.factType
          ∧ SameText (.array (spec.tests.map (·.canonical)))
            (.array (spec'.tests.map (·.canonical))) := by
        simpa [List.lookup_cons] using h.lookup (by simp) (by simp)
      exact .pattern ⟨reordered_checks hd hd' htests, by rw [hvar, htype]⟩
    | _ => exact absurd (kind_eq_of_sameText (by simp) (by simp) h) (by decide)
  | join spec =>
    cases spec' with
    | join spec' =>
      obtain ⟨hleft, hoperator, hright, hvars⟩ : spec.left = spec'.left
          ∧ spec.operator = spec'.operator ∧ spec.right = spec'.right ∧ spec.vars = spec'.vars := by
        simpa [List.lookup_cons, sameText_texts_iff] using h.lookup (by simp) (by simp)
      exact .join ⟨by rw [hleft, hoperator, hright, hvars]⟩
    | _ => exact absurd (kind_eq_of_sameText (by simp) (by simp) h) (by decide)
  | negation spec =>
    cases spec' with
    | negation spec' =>
      obtain ⟨htype, htests, hmatch⟩ : spec.factType = spec'.factType
          ∧ SameText (.array (spec.tests.map (·.canonical))) (.array (spec'.tests.map (·.canonical)))
          ∧ SameText (canonicalCorrelations spec.correlations)
            (canonicalCorrelations spec'.correlations) := by
        simpa [List.lookup_cons] using h.lookup (by simp) (by simp)
      exact .negation ⟨reordered_checks hd.1 hd'.1 htests, rearranged_correlations hd.2 hmatch,
        by rw [htype]⟩
    | _ => exact absurd (kind_eq_of_sameText (by simp) (by simp) h) (by decide)
  | aggregate spec =>
    cases spec' with
    | aggregate spec' =>
      obtain ⟨htype, hfunction, hfield, htests, hmatch, hoperator, hthreshold, hbind⟩ :
          spec.factType = spec'.factType ∧ spec.function = spec'.function ∧ spec.field = spec'.field
          ∧ SameText (.array (spec.tests.map (·.canonical))) (.array (spec'.tests.map (·.canonical)))
          ∧ SameText (canonicalCorrelations spec.correlations)
            (canonicalCorrelations spec'.correlations)
          ∧ spec.operator = spec'.operator
          ∧ SameText spec.threshold.canonical spec'.threshold.canonical
          ∧ spec.bind = spec'.bind := by
        simpa [List.lookup_cons] using h.lookup (by simp) (by simp)
      exact .aggregate ⟨reordered_checks hd.1 hd'.1 htests, rearranged_correlations hd.2.1 hmatch,
        hd.2.2.reordered_of_sameText hd'.2.2 hthreshold,
        by rw [htype, hfunction, hfield, hoperator, hbind]⟩
    | _ => exact absurd (kind_eq_of_sameText (by simp) (by simp) h) (by decide)

theorem ActionKind.name_inj {kind kind' : ActionKind} (h : kind.name = kind'.name) : kind = kind' := by
  cases kind <;> cases kind' <;> first | rfl | exact absurd h (by decide)

theorem ActionSpec.reordered_of_sameText {spec spec' : ActionSpec}
    (hd : spec.Declares Value.Told) (hd' : spec'.Declares Value.Told)
    (h : SameText spec.canonical spec'.canonical) : spec.Reordered spec' := by
  obtain ⟨hkind, htarget, hfield, hvalue, hunique, htype, hdata, htext⟩ :
      spec.kind.name = spec'.kind.name ∧ spec.target = spec'.target ∧ spec.field = spec'.field
      ∧ SameText spec.value.canonical spec'.value.canonical ∧ spec.unique = spec'.unique
      ∧ spec.factType = spec'.factType
      ∧ SameText (.object (spec.data.map fun entry => (entry.1, entry.2.canonical)))
        (.object (spec'.data.map fun entry => (entry.1, entry.2.canonical)))
      ∧ spec.text = spec'.text := by
    simpa [List.lookup_cons] using h.lookup (by simp) (by simp)
  refine ⟨Operand.reordered_of_sameText hd.value hd'.value hvalue, ?_, ?_⟩
  . exact hdata.rearranged_of_object hd.keys fun x hx y hy =>
      Operand.reordered_of_sameText (hd.data x hx) (hd'.data y hy)
  . rw [ActionKind.name_inj hkind, htarget, hfield, hunique, htype, htext]

theorem RuleSpec.reordered_of_sameText {spec spec' : RuleSpec}
    (hd : spec.Declares Value.Told) (hd' : spec'.Declares Value.Told)
    (h : SameText spec.canonical spec'.canonical) : spec.Reordered spec' := by
  obtain ⟨hname, hpriority, hdescription, hconditions, hactions, hexplanation, hrefire⟩ :
      spec.name = spec'.name ∧ spec.priority = spec'.priority
      ∧ spec.description = spec'.description
      ∧ SameText (.array (spec.conditions.map (·.canonical)))
        (.array (spec'.conditions.map (·.canonical)))
      ∧ SameText (.array (spec.actions.map (·.canonical))) (.array (spec'.actions.map (·.canonical)))
      ∧ spec.explanation = spec'.explanation ∧ spec.refireOnChange = spec'.refireOnChange := by
    simpa [List.lookup_cons] using h.lookup (by simp) (by simp)
  refine ⟨?_, ?_, ?_⟩
  . exact hconditions.forall₂_of_array fun x hx y hy =>
      ConditionSpec.reordered_of_sameText (hd.conditions x hx) (hd'.conditions y hy)
  . exact hactions.forall₂_of_array fun x hx y hy =>
      ActionSpec.reordered_of_sameText (hd.actions x hx) (hd'.actions y hy)
  . rw [hname, hpriority, hdescription, hexplanation, hrefire]

theorem RuleSetSpec.reordered_of_sameText {spec spec' : RuleSetSpec}
    (hd : spec.Declares Value.Told) (hd' : spec'.Declares Value.Told)
    (h : SameText spec.canonical spec'.canonical) : spec.Reordered spec' := by
  obtain ⟨hname, hversion, htypes, hrules⟩ : spec.name = spec'.name ∧ spec.version = spec'.version
      ∧ SameText (.array (spec.factTypes.map (·.canonical)))
        (.array (spec'.factTypes.map (·.canonical)))
      ∧ SameText (.array (spec.rules.map (·.canonical)))
        (.array (spec'.rules.map (·.canonical))) := by
    simpa [List.lookup_cons] using h.lookup (by simp) (by simp)
  have htypes : spec.factTypes = spec'.factTypes := by
    rw [← List.forall₂_eq_eq_eq]
    exact htypes.forall₂_of_array fun _ _ _ _ => FactTypeSpec.eq_of_sameText
  constructor
  . exact hrules.forall₂_of_array fun x hx y hy =>
      RuleSpec.reordered_of_sameText (hd x hx) (hd' y hy)
  . rw [hname, hversion, htypes]

theorem RuleSetSpec.sameText_iff_reordered {spec spec' : RuleSetSpec}
    (h : spec.Declares Value.Told) (h' : spec'.Declares Value.Told) :
    SameText spec.canonical spec'.canonical ↔ spec.Reordered spec' :=
  ⟨RuleSetSpec.reordered_of_sameText h h', RuleSetSpec.sameText_of_reordered⟩

/-! ### The digest -/

theorem declares_shipping {P : Value → Prop} (hnull : P .null) {terms : Value}
    (hterms : P (.list [terms])) : (shippingSpec terms [] [] none none).Declares P := by
  intro rule hrule
  cases List.mem_singleton.mp hrule
  constructor
  . refine List.forall_mem_cons.mpr ⟨List.forall_mem_singleton.mpr hterms, ?_⟩
    exact List.forall_mem_singleton.mpr ⟨List.forall_mem_nil _, .nil⟩
  . exact List.forall_mem_singleton.mpr ⟨hnull, .nil, List.forall_mem_nil _⟩

theorem reordered_shipping {terms terms' : Value} {correlations correlations' : List (String × String)}
    {data data' : List (String × Operand)} {predicate predicate' script script' : Option Callable}
    (h : (shippingSpec terms correlations data predicate script).Reordered
      (shippingSpec terms' correlations' data' predicate' script')) : terms.Reordered terms' := by
  cases h.rules with
  | cons hrule _ =>
    cases hrule.conditions with
    | cons hpattern _ =>
      cases hpattern with
      | pattern hpattern =>
        cases hpattern.tests with
        | cons htest _ =>
          cases htest.value with
          | same => exact .same _
          | list h =>
            cases h with
            | cons h _ => exact h

theorem blurred_shipping {terms terms' : Value} (h : terms.blurred = terms'.blurred) :
    (shippingSpec terms [] [] none none).blurred.Reordered
      (shippingSpec terms' [] [] none none).blurred := by
  refine ⟨.cons ⟨.cons (.pattern ⟨.cons ⟨?_, rfl⟩ .nil, rfl⟩)
    (.cons (.negation ⟨.nil, .nil, rfl⟩) .nil),
    .cons ⟨.literal (.same _), .nil, rfl⟩ .nil, rfl⟩ .nil, rfl⟩
  change Value.Reordered (Value.list [terms.blurred]) (Value.list [terms'.blurred])
  rw [h]
  exact .same _

/--
Rule sets without computed values have one digest text if and only if they are the same, up to the order
of keys, once their values are taken as texts tell them. Where all values are told, they are the same as
they stand.
-/
theorem digestText_eq_iff (spec spec' : RuleSetSpec) :
    (spec.Declares Value.Written → spec'.Declares Value.Written →
      (spec.digestText = spec'.digestText ↔ spec.blurred.Reordered spec'.blurred))
    ∧ (spec.Declares Value.Told → spec'.Declares Value.Told →
      (spec.digestText = spec'.digestText ↔ spec.Reordered spec')) := by
  constructor
  . intro h h'
    have hblurred : spec.digestText = spec'.digestText
        ↔ SameText spec.blurred.canonical spec'.blurred.canonical := by
      have htext : spec.digestText = spec.blurred.digestText := spec.sameText_blurred
      have htext' : spec'.digestText = spec'.blurred.digestText := spec'.sameText_blurred
      rw [htext, htext']
      rfl
    exact hblurred.trans (RuleSetSpec.sameText_iff_reordered h.blurred h'.blurred)
  . exact RuleSetSpec.sameText_iff_reordered

theorem digestText_eq_iff_shipping :
    let spec (terms : Value) := shippingSpec terms [] [] none none
    let days (n : Int) := Value.list [.int 30, .int n]
    ((spec (days 60)).Declares Value.Told ∧ (spec (days 90)).Declares Value.Told
      ∧ (spec (days 60)).digestText ≠ (spec (days 90)).digestText)
    ∧ (spec (days 60)).Declares Value.Written
      ∧ (spec (.tuple [.int 30, .int 60])).Declares Value.Written
      ∧ (spec (days 60)).digestText = (spec (.tuple [.int 30, .int 60])).digestText := by
  intro spec days
  have htold (n : Int) : (spec (days n)).Declares Value.Told := by
    refine declares_shipping .null (.list (List.forall_mem_singleton.mpr (.list ?_)))
    exact List.forall_mem_cons.mpr ⟨.int 30, List.forall_mem_singleton.mpr (.int n)⟩
  have hitems : ∀ x ∈ [Value.int 30, .int 60], x.Written :=
    List.forall_mem_cons.mpr ⟨.int 30, List.forall_mem_singleton.mpr (.int 60)⟩
  have hlist : (spec (days 60)).Declares Value.Written :=
    declares_shipping .null (.list (List.forall_mem_singleton.mpr (.list hitems)))
  have htuple : (spec (.tuple [.int 30, .int 60])).Declares Value.Written :=
    declares_shipping .null (.list (List.forall_mem_singleton.mpr (.tuple hitems)))
  refine ⟨⟨htold 60, htold 90, ?_⟩, hlist, htuple, ?_⟩
  . rw [Ne, (digestText_eq_iff _ _).2 (htold 60) (htold 90)]
    intro hreordered
    cases reordered_shipping hreordered with
    | list hdays =>
      cases hdays with
      | cons _ hdays =>
        cases hdays with
        | cons hday _ => cases hday
  . exact ((digestText_eq_iff _ _).1 hlist htuple).mpr (blurred_shipping rfl)

/--
A list and a tuple have one digest, and so have a set and its text, although rules decide differently by
them.
-/
theorem digest_of_tuple :
    let spec (terms : Value) := shippingSpec terms [] [] none none
    let days := [Value.int 30, .int 60]
    ((spec (.list days)).digestText = (spec (.tuple days)).digestText
      ∧ (spec (.list days)).digest = (spec (.tuple days)).digest
      ∧ ¬ (spec (.list days)).Reordered (spec (.tuple days)))
    ∧ (Operator.isIn.apply (.tuple days) (.list [.list days]) = .ok false
      ∧ Operator.isIn.apply (.tuple days) (.list [.tuple days]) = .ok true)
    ∧ (spec (.set [.int 30])).digestText = (spec (.text "\x7b30\x7d")).digestText
      ∧ (spec (.set [.int 30])).digest = (spec (.text "\x7b30\x7d")).digest
      ∧ ¬ (spec (.set [.int 30])).Reordered (spec (.text "\x7b30\x7d")) := by
  intro spec days
  have hsame : ∀ {terms terms' : Value}, terms.canonical = terms'.canonical →
      ¬ terms.Reordered terms' → (spec terms).digestText = (spec terms').digestText
        ∧ (spec terms).digest = (spec terms').digest ∧ ¬ (spec terms).Reordered (spec terms') := by
    intro terms terms' hcanonical hne
    have hspec : (spec terms).canonical = (spec terms').canonical := by
      simp [spec, shippingSpec, RuleSetSpec.canonical, RuleSpec.canonical, ConditionSpec.canonical,
        CheckSpec.canonical, Value.canonical, Value.canonicalItems, hcanonical]
    have htext : (spec terms).digestText = (spec terms').digestText :=
      congrArg (render canonical) hspec
    exact ⟨htext, by rw [RuleSetSpec.digest, RuleSetSpec.digest, htext],
      fun hreordered => hne (reordered_shipping hreordered)⟩
  refine ⟨hsame rfl ?_, ⟨rfl, rfl⟩, hsame ?_ ?_⟩
  . intro hreordered
    cases hreordered
  . have hliteral : (Value.set [.int 30]).literal = "\x7b30\x7d" := by decide
    exact congrArg Json.text hliteral
  . intro hreordered
    cases hreordered

end ForwardChaining
