import ForwardChaining.Aggregate
import ForwardChaining.Proofs.Value.Rank
import Mathlib.Algebra.BigOperators.Group.List.Basic
import Mathlib.Algebra.Order.Ring.Int

/-!
This module contains what aggregate functions give whatever the order of the contributions: for integers
always the same value, which has a hash, and as the least and the greatest of numbers the same number.
-/

namespace ForwardChaining

namespace Value

/-- The value is an integer. -/
def IsInt (x : Value) : Prop :=
  ∃ n, x = .int n

theorem IsInt.number {x : Value} (h : x.IsInt) : x.IsNumber := by
  obtain ⟨n, rfl⟩ := h
  trivial

theorem IsInt.ranks {x : Value} (h : x.IsInt) : ∃ p, x.Ranks p := by
  obtain ⟨n, rfl⟩ := h
  exact ⟨.rational n, trivial, rfl⟩

theorem IsInt.eq_of_same {x y : Value} (hx : x.IsInt) (hy : y.IsInt) (h : x.same y = true) : x = y := by
  obtain ⟨n, rfl⟩ := hx
  obtain ⟨k, rfl⟩ := hy
  rw [IsNumber.same_iff (x := .int n) trivial] at h
  simpa [sense?, number?, Number.sense] using h

theorem exists_ints {values : List Value} (h : ∀ x ∈ values, x.IsInt) :
    ∃ ns : List Int, values = ns.map .int := by
  induction values with
  | nil => exact ⟨[], rfl⟩
  | cons x values ih =>
    obtain ⟨n, rfl⟩ := h x (by simp)
    obtain ⟨ns, rfl⟩ := ih fun y hy => h y (by simp [hy])
    exact ⟨n :: ns, rfl⟩

theorem exactInts?_map_int (ns : List Int) : exactInts? (ns.map .int) = some ns := by
  induction ns with
  | nil => rfl
  | cons n ns ih => simp [exactInts?, exactInt?, ih]

theorem foldl_add (ns : List Int) (k : Int) : ns.foldl (· + ·) k = k + ns.sum := by
  induction ns generalizing k with
  | nil => simp
  | cons n ns ih =>
    rw [List.foldl_cons, ih, List.sum_cons]
    omega

theorem exactSum_map_int (i : Nat) (ns : List Int) :
    exactSum i (ns.map .int) = .ok (.int ns.sum) := by
  unfold exactSum
  rw [exactInts?_map_int]
  simp [foldl_add]

theorem relate_int (r : Relation) (a b : Int) :
    relate r (.int a) (.int b) = .ok (r.accepts (compare a b)) := by
  simp [relate, relateAtoms, number?, Number.compare?]

/-- The relation holds between two integers. -/
def Holds (r : Relation) (a b : Int) : Prop :=
  r.accepts (compare a b) = true

theorem holds_less {a b : Int} : Holds .less a b ↔ a < b := by
  unfold Holds Relation.accepts
  rw [beq_iff_eq, Std.compare_eq_lt]

/-- The value is one of these, it is a number of this value, and none of them precedes it. -/
structure Extreme (r : Relation) (xs : List Value) (m : Value) (q : Extended) : Prop where
  mem : m ∈ xs
  ranks : m.Ranks q
  foremost : ∀ x ∈ xs, ∀ p, x.Ranks p → ¬ r.Precedes p q

theorem extreme_ok {r : Relation} (hr : r.IsStrict) {best : Value} {xs : List Value}
    (h : ∀ x ∈ best :: xs, ∃ p, x.Ranks p) :
    ∃ m q, extreme r best xs = .ok m ∧ Extreme r (best :: xs) m q := by
  induction xs generalizing best with
  | nil =>
    obtain ⟨q, hq⟩ := h best (List.mem_singleton_self best)
    refine ⟨best, q, rfl, List.mem_singleton_self best, hq, ?_⟩
    intro x hx p hp
    obtain rfl := List.mem_singleton.mp hx
    rw [hp.unique hq]
    exact Relation.not_precedes_self hr q
  | cons x xs ih =>
    rw [List.forall_mem_cons, List.forall_mem_cons] at h
    obtain ⟨⟨b, hb⟩, ⟨p, hp⟩, hrest⟩ := h
    simp only [extreme, relate_ranks r hp hb]
    cases haccepts : r.accepts (p.compare b) with
    | true =>
      obtain ⟨m, q, hm, hextreme⟩ := ih (List.forall_mem_cons.mpr ⟨⟨p, hp⟩, hrest⟩)
      have hpq := hextreme.foremost x (List.mem_cons_self ..) p hp
      refine ⟨m, q, hm, List.mem_cons_of_mem best hextreme.mem, hextreme.ranks, ?_⟩
      rw [List.forall_mem_cons]
      refine ⟨?_, hextreme.foremost⟩
      intro b' hb' hbq
      rw [hb'.unique hb] at hbq
      exact hpq (Relation.Precedes.trans hr haccepts hbq)
    | false =>
      obtain ⟨m, q, hm, hextreme⟩ := ih (List.forall_mem_cons.mpr ⟨⟨b, hb⟩, hrest⟩)
      have hbq := hextreme.foremost best (List.mem_cons_self ..) b hb
      have hpb : ¬ r.Precedes p b := by simp [Relation.Precedes, haccepts]
      have hforemost := List.forall_mem_cons.mp hextreme.foremost
      refine ⟨m, q, hm, ?_, hextreme.ranks, ?_⟩
      . rcases List.mem_cons.mp hextreme.mem with rfl | hmem
        . exact List.mem_cons_self ..
        . exact List.mem_cons_of_mem _ (List.mem_cons_of_mem _ hmem)
      . rw [List.forall_mem_cons, List.forall_mem_cons]
        refine ⟨hforemost.1, ?_, hforemost.2⟩
        intro p' hp'
        rw [hp'.unique hp]
        exact Relation.Precedes.not_trans hr hpb hbq

theorem Extreme.same {r : Relation} (hr : r.IsStrict) {xs xs' : List Value} {m m' : Value}
    {q q' : Extended} (h : Extreme r xs m q) (h' : Extreme r xs' m' q')
    (hnumbers : ∀ x ∈ xs, x.IsNumber) (hnumbers' : ∀ x ∈ xs', x.IsNumber)
    (hsense : ∀ p, p ∈ xs.map sense? ↔ p ∈ xs'.map sense?) : m.same m' = true := by
  obtain ⟨x', hx', heq'⟩ := List.mem_map.mp ((hsense _).mp (List.mem_map_of_mem h.mem))
  obtain ⟨x, hx, heq⟩ := List.mem_map.mp ((hsense _).mpr (List.mem_map_of_mem h'.mem))
  have hqq' := h'.foremost x' hx' q ⟨hnumbers' x' hx', heq'.trans h.ranks.2⟩
  have hq'q := h.foremost x hx q' ⟨hnumbers x hx, heq.trans h'.ranks.2⟩
  rw [h.ranks.1.same_iff, h.ranks.2, h'.ranks.2, Relation.eq_of_not_precedes hr hqq' hq'q]

theorem relate_number (r : Relation) {x y : Value} (hx : x.IsNumber) (hy : y.IsNumber) :
    ∃ answer, relate r x y = .ok answer := by
  cases x <;> cases y <;> first | exact False.elim hx | exact False.elim hy | exact ⟨_, rfl⟩

theorem extreme_number (r : Relation) {best : Value} (hbest : best.IsNumber) {xs : List Value}
    (h : ∀ x ∈ xs, x.IsNumber) : ∃ m, extreme r best xs = .ok m := by
  induction xs generalizing best with
  | nil => exact ⟨best, rfl⟩
  | cons x xs ih =>
    rw [List.forall_mem_cons] at h
    obtain ⟨answer, hanswer⟩ := relate_number r h.1 hbest
    simp only [extreme, hanswer]
    cases answer with
    | true => exact ih h.1 h.2
    | false => exact ih hbest h.2

/-- The value is one that no lookup in a set refuses. -/
def IsPlain (x : Value) : Prop :=
  x = .null ∨ x.IsInt

theorem IsPlain.hashable {x : Value} (h : x.IsPlain) : x.unhashable? = none := by
  rcases h with rfl | ⟨n, rfl⟩ <;> rfl

end Value

namespace AggregateFunction

open Value

/--
The least and the greatest of some numbers depend on their values only: whatever their order and their
types, the results are the same number.
-/
theorem value_extreme {f : AggregateFunction} (hf : f = .min ∨ f = .max) (i : Nat)
    {xs xs' : List Value} (h : ∀ x ∈ xs, ∃ p, x.Ranks p) (h' : ∀ x ∈ xs', ∃ p, x.Ranks p)
    (hsense : (xs.map sense?).Perm (xs'.map sense?)) :
    ∃ m m', f.value i xs = .ok m ∧ f.value i xs' = .ok m' ∧ m.same m' = true
      ∧ (m = .null ∧ m' = .null ∨ m ∈ xs ∧ m' ∈ xs') := by
  obtain ⟨r, hr, hvalue⟩ : ∃ r : Relation, r.IsStrict ∧ ∀ x ys, f.value i (x :: ys) = extreme r x ys := by
    rcases hf with rfl | rfl
    . exact ⟨.less, .inl rfl, fun _ _ => rfl⟩
    . exact ⟨.greater, .inr rfl, fun _ _ => rfl⟩
  have hnil : f.value i [] = .ok .null := by
    rcases hf with rfl | rfl <;> rfl
  cases xs with
  | nil =>
    obtain rfl : xs' = [] := List.map_eq_nil_iff.mp hsense.symm.eq_nil
    exact ⟨.null, .null, hnil, hnil, rfl, .inl ⟨rfl, rfl⟩⟩
  | cons x xs =>
    cases xs' with
    | nil => exact absurd hsense.eq_nil (by simp)
    | cons x' xs' =>
      obtain ⟨m, q, hm, hextreme⟩ := extreme_ok hr h
      obtain ⟨m', q', hm', hextreme'⟩ := extreme_ok hr h'
      refine ⟨m, m', (hvalue x xs).trans hm, (hvalue x' xs').trans hm', ?_, .inr ⟨hextreme.mem, hextreme'.mem⟩⟩
      apply hextreme.same hr hextreme' _ _ fun p => hsense.mem_iff
      . intro y hy
        obtain ⟨p, hp⟩ := h y hy
        exact hp.1
      . intro y hy
        obtain ⟨p, hp⟩ := h' y hy
        exact hp.1

theorem value_perm (f : AggregateFunction) (i : Nat) {values values' : List Value}
    (hints : ∀ x ∈ values, x.IsInt) (hperm : values.Perm values') :
    ∃ x, f.value i values = .ok x ∧ f.value i values' = .ok x ∧ x.IsPlain := by
  have hints' : ∀ x ∈ values', x.IsInt := fun x hx => hints x (hperm.mem_iff.mpr hx)
  have hextreme : f = .min ∨ f = .max →
      ∃ x, f.value i values = .ok x ∧ f.value i values' = .ok x ∧ x.IsPlain := by
    intro hf
    obtain ⟨m, m', hm, hm', hsame, ⟨rfl, rfl⟩ | ⟨hmem, hmem'⟩⟩ := value_extreme hf i
      (fun x hx => (hints x hx).ranks) (fun x hx => (hints' x hx).ranks) (hperm.map _)
    . exact ⟨.null, hm, hm', .inl rfl⟩
    . rw [(hints m hmem).eq_of_same (hints' m' hmem') hsame] at hm
      exact ⟨m', hm, hm', .inr (hints' m' hmem')⟩
  cases f with
  | count => exact ⟨_, rfl, by rw [value, hperm.length_eq], .inr ⟨_, rfl⟩⟩
  | sum =>
    obtain ⟨ns, rfl⟩ := exists_ints hints
    obtain ⟨ns', rfl⟩ := exists_ints hints'
    have hinjective : Function.Injective Value.int := fun a b h => Value.int.inj h
    have hsum := ((List.map_perm_map_iff hinjective).mp hperm).sum_eq
    exact ⟨_, exactSum_map_int i ns, (exactSum_map_int i ns').trans (by rw [hsum]), .inr ⟨_, rfl⟩⟩
  | min => exact hextreme (.inl rfl)
  | max => exact hextreme (.inr rfl)

theorem value_ok {f : AggregateFunction} (hf : f ≠ .sum) (i : Nat) {values : List Value}
    (h : ∀ x ∈ values, x.IsNumber) : ∃ x, f.value i values = .ok x := by
  cases f with
  | sum => exact absurd rfl hf
  | count => exact ⟨_, rfl⟩
  | min | max =>
    cases values with
    | nil => exact ⟨_, rfl⟩
    | cons x xs =>
      rw [List.forall_mem_cons] at h
      exact extreme_number _ h.1 h.2

end AggregateFunction
end ForwardChaining
