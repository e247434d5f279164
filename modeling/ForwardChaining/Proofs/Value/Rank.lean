import ForwardChaining.Proofs.Value.Sameness
import ForwardChaining.Value.Order
import Mathlib.Algebra.Order.Ring.Rat

/-!
This module contains the order of numbers by their exact values, whatever their types: which of some
numbers comes first depends on their values only.
-/

namespace ForwardChaining

namespace Extended

/-- One number is less than another. -/
def Below (p q : Extended) : Prop :=
  p.compare q = .lt

theorem compare_rational (p q : Rat) : (rational p).compare (rational q)
    = if p < q then .lt else if p = q then .eq else .gt :=
  rfl

theorem below_rational (p q : Rat) : Below (.rational p) (.rational q) ↔ p < q := by
  rw [Below, compare_rational]
  split
  . next hlt => simp [hlt]
  . next hle => split <;> simp [hle]

theorem Below.trans {p q s : Extended} (hpq : p.Below q) (hqs : q.Below s) : p.Below s := by
  cases p with
  | rational p =>
    cases q with
    | rational q =>
      cases s with
      | rational s =>
        rw [below_rational] at hpq hqs ⊢
        exact hpq.trans hqs
      | negInfinity => cases hqs
      | posInfinity => rfl
    | negInfinity => cases hpq
    | posInfinity => cases s <;> cases hqs
  | negInfinity =>
    cases s with
    | negInfinity => cases q <;> cases hqs
    | rational | posInfinity => rfl
  | posInfinity => cases q <;> cases hpq

theorem compare_eq_gt_iff (p q : Extended) : p.compare q = .gt ↔ q.Below p := by
  cases p with
  | rational p =>
    cases q with
    | rational q =>
      rw [below_rational, compare_rational]
      split
      . next hlt => simp [hlt.le]
      . next hle =>
        split
        . next heq => simp [heq]
        . next hne => simp [lt_of_le_of_ne (not_lt.mp hle) (Ne.symm hne)]
    | negInfinity | posInfinity => simp [compare, Below]
  | negInfinity | posInfinity => cases q <;> simp [compare, Below]

theorem compare_swap (p q : Extended) : q.compare p = (p.compare q).swap := by
  cases h : p.compare q with
  | lt => exact (compare_eq_gt_iff q p).mpr h
  | eq =>
    rw [compare_eq_iff] at h
    rw [h]
    exact (compare_eq_iff q q).mpr rfl
  | gt => exact (compare_eq_gt_iff p q).mp h

theorem not_below_self (p : Extended) : ¬ p.Below p := by
  have hself := (compare_eq_iff p p).mpr rfl
  unfold Below
  rw [hself]
  nofun

theorem eq_of_not_below {p q : Extended} (hpq : ¬ p.Below q) (hqp : ¬ q.Below p) : p = q := by
  rw [← compare_eq_iff]
  rw [← compare_eq_gt_iff] at hqp
  cases hcompare : p.compare q with
  | eq => rfl
  | lt => exact absurd hcompare hpq
  | gt => exact absurd hcompare hqp

end Extended

namespace Relation

/-- One of two numbers comes before the other in the sense of the relation. -/
def Precedes (r : Relation) (p q : Extended) : Prop :=
  r.accepts (p.compare q) = true

/-- The relation is a strict order: less or greater. -/
def IsStrict (r : Relation) : Prop :=
  r = .less ∨ r = .greater

theorem precedes_less {p q : Extended} : Precedes .less p q ↔ p.Below q := by
  simp [Precedes, accepts, Extended.Below]

theorem precedes_greater {p q : Extended} : Precedes .greater p q ↔ q.Below p := by
  simp [Precedes, accepts, Extended.compare_eq_gt_iff]

theorem Precedes.trans {r : Relation} (hr : r.IsStrict) {p q s : Extended} (hpq : r.Precedes p q)
    (hqs : r.Precedes q s) : r.Precedes p s := by
  rcases hr with rfl | rfl
  . rw [precedes_less] at hpq hqs ⊢
    exact hpq.trans hqs
  . rw [precedes_greater] at hpq hqs ⊢
    exact hqs.trans hpq

theorem not_precedes_self {r : Relation} (hr : r.IsStrict) (p : Extended) : ¬ r.Precedes p p := by
  rcases hr with rfl | rfl
  . rw [precedes_less]
    exact p.not_below_self
  . rw [precedes_greater]
    exact p.not_below_self

theorem eq_of_not_precedes {r : Relation} (hr : r.IsStrict) {p q : Extended} (hpq : ¬ r.Precedes p q)
    (hqp : ¬ r.Precedes q p) : p = q := by
  rcases hr with rfl | rfl
  . rw [precedes_less] at hpq hqp
    exact Extended.eq_of_not_below hpq hqp
  . rw [precedes_greater] at hpq hqp
    exact Extended.eq_of_not_below hqp hpq

theorem Precedes.not_trans {r : Relation} (hr : r.IsStrict) {p q s : Extended}
    (hpq : ¬ r.Precedes p q) (hqs : ¬ r.Precedes q s) : ¬ r.Precedes p s := by
  intro hps
  by_cases hqp : r.Precedes q p
  . exact hqs (hqp.trans hr hps)
  . rw [eq_of_not_precedes hr hpq hqp] at hps
    exact hqs hps

end Relation

theorem Number.sense_eq_inr {x : Number} {p : Extended} : x.sense = .inr p ↔ x.value? = some p := by
  constructor
  . exact value?_eq_of_sense
  . intro h
    cases hsense : x.sense with
    | inl origin =>
      rw [value?_of_nan hsense] at h
      cases h
    | inr q =>
      rw [value?_eq_of_sense hsense, Option.some.injEq] at h
      rw [h]

theorem Number.compare?_eq_some {x y : Number} {o : Ordering} : x.compare? y = some o
    ↔ ∃ p q, x.value? = some p ∧ y.value? = some q ∧ p.compare q = o := by
  have hints : ∀ a b : Int, Ord.compare a b = (Extended.rational a).compare (.rational b) := by
    intro a b
    simp only [Ord.compare, compareOfLessAndEq, Extended.compare, Rat.intCast_lt_intCast,
      Rat.intCast_inj]
  have hvalues : x.compare? y = x.value?.bind fun p => y.value?.map p.compare := by
    cases x with
    | int a =>
      cases y with
      | int b => exact congrArg some (hints a b)
      | float b =>
        simp only [compare?]
        cases (Number.float b).value? <;> rfl
    | float a =>
      simp only [compare?]
      cases (Number.float a).value? <;> cases y.value? <;> rfl
  simp only [hvalues, Option.bind_eq_some_iff, Option.map_eq_some_iff, exists_and_left]

namespace Value

/-- The value is a number, and no truth value. -/
def IsNumber : Value → Prop
  | .int _ | .float _ => True
  | _ => False

/-- What decides whether a number is the same as another one. -/
def sense? (x : Value) : Option (NanOrigin ⊕ Extended) :=
  x.number?.map Number.sense

/-- The value is a number, and its value is this one: it is no NaN. -/
def Ranks (x : Value) (p : Extended) : Prop :=
  x.IsNumber ∧ x.sense? = some (.inr p)

theorem Ranks.unique {x : Value} {p q : Extended} (hp : x.Ranks p) (hq : x.Ranks q) : p = q :=
  Sum.inr.inj (Option.some.inj (hp.2.symm.trans hq.2))

theorem IsNumber.number {x : Value} (h : x.IsNumber) : ∃ p, x.number? = some p := by
  cases x <;> first | exact False.elim h | exact ⟨_, rfl⟩

theorem IsNumber.same_iff {x y : Value} (hx : x.IsNumber) : x.same y = true ↔ x.sense? = y.sense? := by
  obtain ⟨p, hp⟩ := hx.number
  rw [same_number_iff hp, sense?, sense?, hp, Option.map_some, eq_comm, Option.map_eq_some_iff]
  constructor
  . rintro ⟨q, hq, heq⟩
    exact ⟨q, hq, heq.symm⟩
  . rintro ⟨q, hq, heq⟩
    exact ⟨q, hq, heq.symm⟩

theorem perm_of_sense {xs ys : List Value} (hperm : (xs.map sense?).Perm (ys.map sense?))
    (h : ∀ x ∈ xs, ∀ y ∈ ys, x.sense? = y.sense? → x = y) : xs.Perm ys := by
  induction xs generalizing ys with
  | nil =>
    rw [List.map_eq_nil_iff.mp hperm.symm.eq_nil]
  | cons x xs ih =>
    obtain ⟨y, hy, heq⟩ := List.mem_map.mp (hperm.mem_iff.mp (List.mem_cons_self ..))
    obtain rfl : x = y := h x (List.mem_cons_self ..) y hy heq.symm
    obtain ⟨before, after, rfl⟩ := List.append_of_mem hy
    have hrest : (xs.map sense?).Perm ((before ++ after).map sense?) := by
      rw [List.map_append, List.map_cons] at hperm
      rw [List.map_append]
      exact (hperm.trans List.perm_middle).cons_inv
    refine ((ih hrest ?_).cons x).trans List.perm_middle.symm
    intro z hz w hw
    refine h z (List.mem_cons_of_mem _ hz) w ?_
    rw [List.mem_append] at hw ⊢
    rcases hw with hw | hw
    . exact .inl hw
    . exact .inr (List.mem_cons_of_mem _ hw)

theorem number_of_sense {x : Value} {p : Extended} (h : x.sense? = some (.inr p)) :
    ∃ m, x.number? = some m ∧ m.value? = some p := by
  obtain ⟨m, hm, hsense⟩ := Option.map_eq_some_iff.mp h
  exact ⟨m, hm, Number.sense_eq_inr.mp hsense⟩

theorem relate_of_numbers (r : Relation) {x y : Value} {m n : Number} (hx : x.number? = some m)
    (hy : y.number? = some n) : relate r x y = .ok ((m.compare? n).any r.accepts) := by
  have hatoms : relate r x y = relateAtoms r x y := by
    unfold relate
    split <;> first | cases hx | rfl
  rw [hatoms]
  unfold relateAtoms
  split
  . cases hx
  . simp only [hx, hy]

theorem relate_ranks (r : Relation) {x y : Value} {p q : Extended} (hx : x.Ranks p) (hy : y.Ranks q) :
    relate r x y = .ok (r.accepts (p.compare q)) := by
  obtain ⟨m, hm, hp⟩ := number_of_sense hx.2
  obtain ⟨n, hn, hq⟩ := number_of_sense hy.2
  rw [relate_of_numbers r hm hn, Number.compare?_eq_some.mpr ⟨p, q, hp, hq, rfl⟩, Option.any_some]

end Value
end ForwardChaining
