import ForwardChaining.Fact.Basic
import Mathlib.Data.List.Perm.Basic

/-!
This module contains changes of facts as data: which change can happen to some facts, and what the facts
are after it.
-/

namespace ForwardChaining

/-- No two of the facts have the same identity. -/
def Distinct (facts : List Fact) : Prop :=
  (facts.map (·.id)).Nodup

/-- The identity of no fact. -/
def Unused (id : Int) (facts : List Fact) : Prop :=
  ∀ fact ∈ facts, fact.id ≠ id

instance (id : Int) (facts : List Fact) : Decidable (Unused id facts) :=
  inferInstanceAs (Decidable (∀ fact ∈ facts, fact.id ≠ id))

/-- The facts but the one of an identity. -/
def without (id : Int) (facts : List Fact) : List Fact :=
  facts.filter (·.id ≠ id)

theorem distinct_without {facts : List Fact} (h : Distinct facts) (id : Int) :
    Distinct (without id facts) :=
  (List.filter_sublist.map _).nodup h

theorem unused_without (id : Int) (facts : List Fact) : Unused id (without id facts) := by
  intro fact hfact
  exact of_decide_eq_true (List.mem_filter.mp hfact).2

theorem without_of_unused {id : Int} {facts : List Fact} (h : Unused id facts) :
    without id facts = facts :=
  List.filter_eq_self.mpr fun fact hfact => decide_eq_true (h fact hfact)

theorem distinct_append {facts : List Fact} (h : Distinct facts) {fact : Fact}
    (hfresh : Unused fact.id facts) : Distinct (facts ++ [fact]) := by
  unfold Distinct at h ⊢
  rw [List.map_append, List.nodup_append]
  refine ⟨h, by simp, ?_⟩
  intro id hid other hother
  obtain ⟨old, hold, rfl⟩ := List.mem_map.mp hid
  simp only [List.map_cons, List.map_nil, List.mem_singleton] at hother
  rw [hother]
  exact hfresh old hold

namespace Change

/-- The change can happen to some facts: identities are not reused, and types do not change. -/
def Admissible (facts : List Fact) : Change → Prop
  | .inserted fact => Unused fact.id facts
  | .updated fact previous => fact.id = previous.id ∧ fact.type = previous.type
    ∧ ∀ other ∈ facts, other.id = previous.id → other.type = previous.type
  | .retracted fact => ∀ other ∈ facts, other.id = fact.id → other.type = fact.type

/-- The facts after the change. -/
def applied (facts : List Fact) : Change → List Fact
  | .inserted fact => facts ++ [fact]
  | .updated fact previous => without previous.id facts ++ [fact]
  | .retracted fact => without fact.id facts

/-- The fact that the change brings. -/
def brings : Change → Option Fact
  | .inserted fact => some fact
  | .updated fact _ => some fact
  | .retracted _ => none

/-- The fact that the change takes away. -/
def takes : Change → Option Fact
  | .inserted _ => none
  | .updated _ previous => some previous
  | .retracted fact => some fact

/-- The facts after changes, one after the other. -/
def replay (facts : List Fact) (changes : List Change) : List Fact :=
  changes.foldl applied facts

/-- Each change can happen to the facts that the changes before it leave, and takes one of them. -/
def Legal (facts : List Fact) : List Change → Prop
  | [] => True
  | change :: changes => change.Admissible facts ∧ (∀ fact ∈ change.takes, fact ∈ facts)
    ∧ Legal (change.applied facts) changes

theorem replay_append (facts : List Fact) (changes more : List Change) :
    replay facts (changes ++ more) = replay (replay facts changes) more :=
  List.foldl_append

theorem legal_append {facts : List Fact} {changes more : List Change} :
    Legal facts (changes ++ more) ↔ Legal facts changes ∧ Legal (replay facts changes) more := by
  induction changes generalizing facts with
  | nil => simp [Legal, replay]
  | cons change changes ih =>
    rw [List.cons_append, Legal, Legal, ih, and_assoc, and_assoc]
    rfl

theorem applied_perm {facts facts' : List Fact} (h : facts.Perm facts') (change : Change) :
    (change.applied facts).Perm (change.applied facts') := by
  cases change with
  | inserted fact => exact h.append_right _
  | updated fact previous => exact (h.filter _).append_right _
  | retracted fact => exact h.filter _

theorem replay_perm {facts facts' : List Fact} (h : facts.Perm facts') (changes : List Change) :
    (replay facts changes).Perm (replay facts' changes) := by
  induction changes generalizing facts facts' with
  | nil => exact h
  | cons change changes ih => exact ih (applied_perm h change)

theorem admissible_perm {facts facts' : List Fact} (h : facts.Perm facts') {change : Change}
    (hadmissible : change.Admissible facts) : change.Admissible facts' := by
  cases change with
  | inserted fact => exact fun other hother => hadmissible other (h.mem_iff.mpr hother)
  | updated fact previous =>
    exact ⟨hadmissible.1, hadmissible.2.1, fun other hother =>
      hadmissible.2.2 other (h.mem_iff.mpr hother)⟩
  | retracted fact => exact fun other hother => hadmissible other (h.mem_iff.mpr hother)

end Change

end ForwardChaining
