import ForwardChaining.Proofs.Aggregate
import ForwardChaining.Proofs.Logged
import ForwardChaining.Proofs.Operator
import ForwardChaining.Proofs.Value.Key
import ForwardChaining.Rule.Condition

/-!
This module contains what the tests of conditions can fail on. Only membership in a set can fail, so a
filter that tests none decides every fact, and so does a join on facts whose fields hold none.
-/

namespace ForwardChaining

theorem filterMap_cons_append (f : α → Option β) (a : α) (as : List α) :
    (a :: as).filterMap f = (f a).toList ++ as.filterMap f := by
  rw [List.filterMap_cons]
  cases f a <;> rfl

/-- A membership test is not one in a set. -/
def FieldTest.Safe (test : FieldTest) : Prop :=
  test.op.IsMembership → ¬ test.value.IsSet

/-- No test of the filter can fail. -/
def FactFilter.Safe (filter : FactFilter) : Prop :=
  ∀ test ∈ filter.tests, test.Safe

namespace FactFilter

/-- The fact passes the filter. -/
def admits (filter : FactFilter) (fact : Fact) : Bool :=
  (filter.accepts fact).toOption.getD false

theorem passesAll_ok {fact : Fact} {tests : List FieldTest} (h : ∀ test ∈ tests, test.Safe) :
    ∃ answer, passesAll fact tests = .ok answer := by
  induction tests with
  | nil => exact ⟨true, rfl⟩
  | cons test tests ih =>
    obtain ⟨answer, hanswer⟩ : ∃ answer, test.op.apply (fact.get test.field) test.value = .ok answer :=
      Operator.apply_ok (h test (by simp))
    simp only [passesAll, FieldTest.passes, hanswer]
    cases answer with
    | false => exact ⟨false, rfl⟩
    | true => exact ih fun other hother => h other (by simp [hother])

theorem accepts_eq {filter : FactFilter} (h : filter.Safe) (fact : Fact) :
    filter.accepts fact = .ok (filter.admits fact) := by
  have hok : ∃ answer, filter.accepts fact = .ok answer := by
    have hreaches : ∃ answer, filter.reaches fact = .ok answer := by
      unfold reaches
      split
      . exact passesAll_ok h
      . exact ⟨false, rfl⟩
    obtain ⟨answer, hanswer⟩ := hreaches
    unfold accepts
    rw [hanswer]
    split
    . exact ⟨_, rfl⟩
    . exact ⟨answer, rfl⟩
  obtain ⟨answer, hanswer⟩ := hok
  unfold admits
  rw [hanswer]
  rfl

theorem admits_iff {filter : FactFilter} {fact : Fact} :
    filter.admits fact = true ↔ filter.accepts fact = .ok true := by
  unfold admits
  cases filter.accepts fact with
  | error fault => exact iff_of_false nofun nofun
  | ok answer => simp [Except.toOption]

theorem type_of_admits {filter : FactFilter} {fact : Fact} (h : filter.admits fact = true) :
    fact.type = filter.type := by
  by_contra hne
  unfold admits accepts reaches at h
  simp [hne, Except.toOption] at h

end FactFilter

theorem frozen_factKey (keys : List KeyBinding) (fact : Fact) : (factKey keys fact).Frozen := by
  intro x hx
  obtain ⟨k, -, rfl⟩ := List.mem_map.mp hx
  exact Value.frozen_frozen _

theorem frozen_bindingKey {keys : List KeyBinding} {bindings : Bindings} {key : Key}
    (h : bindingKey keys bindings = .ok key) : key.Frozen := by
  unfold bindingKey at h
  induction keys generalizing key with
  | nil =>
    simp only [List.mapM_nil] at h
    cases h
    intro x hx
    simp at hx
  | cons k keys ih =>
    simp only [List.mapM_cons, doBind_eq_ok, map_eq_ok] at h
    obtain ⟨-, ⟨x, -, rfl⟩, rest, hrest, heq⟩ := h
    cases heq
    intro y hy
    rcases List.mem_cons.mp hy with rfl | hy
    . exact Value.frozen_frozen x
    . exact ih hrest y hy

/-! ### Bound variables -/

/-- The variable is bound. -/
def Bindings.Binds (bindings : Bindings) (var : String) : Prop :=
  var ∈ bindings.map (·.1)

theorem Bindings.Binds.lookup {bindings : Bindings} {var : String} (h : bindings.Binds var) :
    ∃ fact, List.lookup var bindings = some fact ∧ (var, fact) ∈ bindings := by
  induction bindings with
  | nil => simp [Binds] at h
  | cons first bindings ih =>
    obtain ⟨v, fact⟩ := first
    by_cases heq : var = v
    . exact ⟨fact, by simp [heq], by simp [heq]⟩
    . have hrest : Binds bindings var := by
        simpa [Binds, heq] using h
      obtain ⟨found, hfound, hmem⟩ := ih hrest
      refine ⟨found, ?_, List.mem_cons_of_mem _ hmem⟩
      have hne : (var == v) = false := by simpa using heq
      simp only [List.lookup_cons, hne]
      exact hfound

namespace Condition

/-- The variables that the condition reads. -/
def uses : Condition → List String
  | .pattern .. => []
  | .join across =>
    (across.left.map (·.var)).toList ++ (across.right.map (·.var)).toList ++ across.vars
  | .negation _ keys => keys.map (·.ref.var)
  | .aggregate _ keys _ => keys.map (·.ref.var)

/-- Every condition reads only variables that are bound before it. -/
def Scoped (bound : List String) : List Condition → Prop
  | [] => True
  | condition :: conditions =>
    (∀ var ∈ condition.uses, var ∈ bound) ∧ Scoped (bound ++ condition.var?.toList) conditions

theorem scoped_take {bound : List String} {conditions : List Condition}
    (h : Scoped bound conditions) (n : Nat) : Scoped bound (conditions.take n) := by
  induction conditions generalizing bound n with
  | nil => simpa using h
  | cons condition conditions ih =>
    cases n with
    | zero => trivial
    | succ n => exact ⟨h.1, ih h.2 n⟩

/-- No filter on single facts can fail. -/
def Safe (condition : Condition) : Prop :=
  ∀ filter ∈ condition.filter?, filter.Safe

/-- What a fact contributes to the condition, if that is an aggregate, is an integer. -/
def Integral (fact : Fact) : Condition → Prop
  | .aggregate filter _ test => fact.type = filter.type →
    ∀ x, test.contribution fact = some x → x.IsInt
  | _ => True

end Condition

theorem bindingKey_ok {keys : List KeyBinding} {bindings : Bindings}
    (h : ∀ k ∈ keys, bindings.Binds k.ref.var) : ∃ key, bindingKey keys bindings = .ok key := by
  unfold bindingKey
  induction keys with
  | nil => exact ⟨[], rfl⟩
  | cons k keys ih =>
    obtain ⟨fact, hfact, -⟩ := (h k (by simp)).lookup
    obtain ⟨key, hkey⟩ := ih fun other hother => h other (by simp [hother])
    have hresolve : k.ref.resolve bindings = .ok (fact.get k.ref.field) := by
      simp only [FieldRef.resolve, hfact]
    refine ⟨(fact.get k.ref.field).frozen :: key, ?_⟩
    rw [List.mapM_cons, hresolve, hkey]
    rfl

/-- No field of the fact holds a set. -/
def Fact.Flat (fact : Fact) : Prop :=
  ∀ field, ¬ (fact.get field).IsSet

namespace JoinCondition

theorem compares_ok {join : JoinCondition} {bindings : Bindings}
    (hbound : ∀ ref, join.left = some ref ∨ join.right = some ref → bindings.Binds ref.var)
    (hflat : ∀ binding ∈ bindings, binding.2.Flat) :
    ∃ answer, join.compares bindings = .ok answer := by
  unfold compares
  split
  . next left right hleft hright =>
    obtain ⟨a, ha, -⟩ := (hbound left (.inl hleft)).lookup
    obtain ⟨b, hb, hmem⟩ := (hbound right (.inr hright)).lookup
    obtain ⟨answer, hanswer⟩ : ∃ answer,
        join.op.apply (a.get left.field) (b.get right.field) = .ok answer :=
      Operator.apply_ok fun _ => hflat (right.var, b) hmem right.field
    refine ⟨answer, ?_⟩
    simp only [FieldRef.resolve, ha, hb]
    exact hanswer
  . exact ⟨true, rfl⟩

theorem arguments_ok {join : JoinCondition} {bindings : Bindings}
    (hbound : ∀ var ∈ join.vars, bindings.Binds var) :
    ∃ facts, join.arguments bindings = .ok facts := by
  unfold arguments
  generalize join.vars = vars at hbound
  induction vars with
  | nil => exact ⟨[], rfl⟩
  | cons var vars ih =>
    obtain ⟨fact, hfact, -⟩ := (hbound var (by simp)).lookup
    obtain ⟨facts, hfacts⟩ := ih fun other hother => hbound other (by simp [hother])
    refine ⟨fact :: facts, ?_⟩
    rw [List.mapM_cons, hfacts, hfact]
    rfl

/-- A join of bound variables holds or does not hold, unless a field is a set. -/
theorem holds_ok {join : JoinCondition} {bindings : Bindings}
    (hbound : ∀ var ∈ (Condition.join join).uses, bindings.Binds var)
    (hflat : ∀ binding ∈ bindings, binding.2.Flat) :
    ∃ answer, join.holds bindings = .ok answer := by
  have hrefs : ∀ ref, join.left = some ref ∨ join.right = some ref → bindings.Binds ref.var := by
    intro ref href
    apply hbound
    rcases href with href | href <;> simp [Condition.uses, href]
  have hvars : ∀ var ∈ join.vars, bindings.Binds var := by
    intro var hvar
    apply hbound
    simp [Condition.uses, hvar]
  obtain ⟨answer, hanswer⟩ := compares_ok hrefs hflat
  obtain ⟨facts, hfacts⟩ := arguments_ok hvars
  unfold holds
  rw [hanswer, hfacts]
  split
  . exact ⟨_, rfl⟩
  . exact ⟨answer, rfl⟩

end JoinCondition
end ForwardChaining
