import ForwardChaining.Operator
import ForwardChaining.Proofs.Value.Sameness

/-!
This module contains when an operator has an answer. It has none only where a value without a hash is
looked up in a set; the same question asked of the set is then answered with no.
-/

namespace ForwardChaining

namespace Value

/-- The value is a set. -/
def IsSet (x : Value) : Prop :=
  ∃ items, x = .set items

/-- The value has a hash: it is no list, no set and no record, and no tuple that holds one of these. -/
inductive HasHash : Value → Prop where
  | null : HasHash .null
  | bool (b : Bool) : HasHash (.bool b)
  | int (n : Int) : HasHash (.int n)
  | float (x : Binary64) : HasHash (.float x)
  | text (s : String) : HasHash (.text s)
  | callable (ident : Nat) (name : String) : HasHash (.callable ident name)
  | tuple {items : List Value} (h : ∀ x ∈ items, HasHash x) : HasHash (.tuple items)

theorem unhashable?_go_eq_none {items : List Value} :
    unhashable?.go items = none ↔ ∀ x ∈ items, x.unhashable? = none := by
  induction items with
  | nil => simp [unhashable?.go]
  | cons x xs ih => simp [unhashable?.go, Option.or_eq_none_iff, ih]

theorem unhashable?_eq_none (x : Value) : x.unhashable? = none ↔ x.HasHash := by
  induction x using induction_on_parts with
  | step x ih =>
    cases x with
    | null => exact iff_of_true rfl .null
    | bool b => exact iff_of_true rfl (.bool b)
    | int n => exact iff_of_true rfl (.int n)
    | float x => exact iff_of_true rfl (.float x)
    | text s => exact iff_of_true rfl (.text s)
    | callable ident name => exact iff_of_true rfl (.callable ident name)
    | list | set | record => exact iff_of_false (by simp [unhashable?]) nofun
    | tuple items =>
      rw [unhashable?, unhashable?_go_eq_none]
      constructor
      . exact fun h => .tuple fun x hx => (ih x hx).mp (h x hx)
      . rintro (_ | _ | _ | _ | _ | _ | h) x hx
        exact (ih x hx).mpr (h x hx)

theorem exists_unhashable? {x : Value} : (∃ part, x.unhashable? = some part) ↔ ¬ x.HasHash := by
  rw [← unhashable?_eq_none, ← Option.isSome_iff_exists, Option.isSome_iff_ne_none]

/-- A list, a tuple or a set. -/
def IsCollection (c : Value) : Prop :=
  ∃ items, c = .list items ∨ c = .tuple items ∨ c = .set items

end Value

namespace Operator

/-- The operator tests membership. -/
def IsMembership (op : Operator) : Prop :=
  op = .isIn ∨ op = .notIn

/-- The lookup of a value without a hash in a set. A set is looked up as a frozen one. -/
def Unanswered (op : Operator) (actual expected : Value) : Prop :=
  op.IsMembership ∧ expected.IsSet ∧ ¬ actual.IsSet ∧ ¬ actual.HasHash

theorem inSet_eq_error {x : Value} (items : List Value) {fault : Fault} :
    inSet x items = .error fault ↔ ¬ x.IsSet
      ∧ ∃ part, x.unhashable? = some part ∧ fault = .unhashable part.typeName := by
  unfold inSet
  split
  . next parts => exact iff_of_false (by simp) fun h => h.1 ⟨parts, rfl⟩
  . next hset =>
    have hnone : ¬ x.IsSet := fun ⟨parts, hparts⟩ => hset parts hparts
    cases hpart : x.unhashable? with
    | none => simp
    | some part => simp [hnone, eq_comm]

theorem membership_eq_error {actual expected : Value} {fault : Fault} :
    membership actual expected = .error fault ↔ expected.IsSet ∧ ¬ actual.IsSet
      ∧ ∃ part, actual.unhashable? = some part ∧ fault = .unhashable part.typeName := by
  cases expected with
  | set items =>
    have hset : (Value.set items).IsSet := ⟨items, rfl⟩
    rw [← inSet_eq_error items]
    cases h : inSet actual items <;> simp [membership, h, hset, Except.map]
  | _ => simp [membership, Value.IsSet]

theorem apply_eq_error {op : Operator} {actual expected : Value} {fault : Fault} :
    op.apply actual expected = .error fault ↔ op.Unanswered actual expected
      ∧ ∃ part, actual.unhashable? = some part ∧ fault = .unhashable part.typeName := by
  have hmembership : membership actual expected = .error fault ↔ (expected.IsSet ∧ ¬ actual.IsSet
      ∧ ¬ actual.HasHash) ∧ ∃ part, actual.unhashable? = some part
        ∧ fault = .unhashable part.typeName := by
    rw [membership_eq_error, ← Value.exists_unhashable?]
    constructor
    . rintro ⟨hset, hlookup, part, hpart, hfault⟩
      exact ⟨⟨hset, hlookup, part, hpart⟩, part, hpart, hfault⟩
    . rintro ⟨⟨hset, hlookup, -⟩, hpart⟩
      exact ⟨hset, hlookup, hpart⟩
  unfold Unanswered
  cases op with
  | isIn | notIn =>
    simp only [apply, IsMembership, true_or, or_true, true_and, ← hmembership]
    cases membership actual expected <;> simp [Except.map]
  | _ => simp [apply, IsMembership]

theorem apply_ok_iff {op : Operator} {actual expected : Value} :
    (∃ answer, op.apply actual expected = .ok answer) ↔ ¬ op.Unanswered actual expected := by
  cases h : op.apply actual expected with
  | ok answer =>
    refine iff_of_true ⟨answer, rfl⟩ fun hun => ?_
    obtain ⟨part, hpart⟩ := Value.exists_unhashable?.mpr hun.2.2.2
    have := apply_eq_error.mpr ⟨hun, part, hpart, rfl⟩
    simp [this] at h
  | error fault => exact iff_of_false (by simp) fun hun => hun (apply_eq_error.mp h).1

theorem apply_ok {op : Operator} {actual expected : Value} (h : op.IsMembership → ¬ expected.IsSet) :
    ∃ answer, op.apply actual expected = .ok answer :=
  apply_ok_iff.mpr fun hun => h hun.1 hun.2.1

theorem apply_ok_of_hashable {op : Operator} {actual expected : Value}
    (h : actual.unhashable? = none) : ∃ answer, op.apply actual expected = .ok answer :=
  apply_ok_iff.mpr fun hun => hun.2.2.2 ((Value.unhashable?_eq_none _).mp h)

theorem compareBy_name (op : Operator) (actual expected : Value) :
    compareBy op.name actual expected = op.apply actual expected := by
  cases op <;> rfl

theorem apply_contains {x c : Value} (hc : c.IsCollection) :
    contains.apply c x = .ok ((isIn.apply x c).toOption.getD false) := by
  obtain ⟨items, rfl | rfl | rfl⟩ := hc
  . rfl
  . rfl
  . change Except.ok ((inSet x items).toOption.getD false)
      = .ok ((((inSet x items).map some).map (·.getD false)).toOption.getD false)
    cases inSet x items <;> rfl

end Operator

end ForwardChaining
