import ForwardChaining.Proofs.Agenda
import Mathlib.Data.Set.Basic

/-!
This module contains the order of selection as it is documented, and that the sort keys implement it. On
activations of distinct keys, of which no two rules are declared at the same place, the order is total.
-/

namespace ForwardChaining

/-! ### Lists of stamps -/

/-- Stamps in the order of selection: later ones come first, and a list comes before its own beginnings. -/
def compareStamps : List Int → List Int → Ordering
  | [], [] => .eq
  | [], _ :: _ => .gt
  | _ :: _, [] => .lt
  | x :: xs, y :: ys => (compare y x).then (compareStamps xs ys)

theorem compare_neg (x y : Int) : compare (-x) (-y) = compare y x := by
  simp only [compare, compareOfLessAndEq, Int.neg_lt_neg_iff, Int.neg_inj, eq_comm]

theorem compare_ofNat (m n : Nat) : compare (m : Int) (n : Int) = compare m n := by
  simp only [compare, compareOfLessAndEq, Int.ofNat_lt, Int.ofNat_inj]

theorem compareLists_stamps {xs ys : List Int} (hxs : ∀ x ∈ xs, 0 < x) (hys : ∀ y ∈ ys, 0 < y) :
    SortKey.compareLists (xs.map (- ·) ++ [0]) (ys.map (- ·) ++ [0]) = compareStamps xs ys := by
  induction xs generalizing ys with
  | nil =>
    cases ys with
    | nil => rfl
    | cons y ys =>
      have hlater : compare 0 (-y) = .gt := by
        have hy := hys y (by simp)
        rw [Int.compare_eq_gt]
        omega
      simp only [List.map_nil, List.nil_append, List.map_cons, List.cons_append,
        SortKey.compareLists, hlater, compareStamps]
      rfl
  | cons x xs ih =>
    rw [List.forall_mem_cons] at hxs
    cases ys with
    | nil =>
      have hearlier : compare (-x) 0 = .lt := by
        rw [Int.compare_eq_lt]
        omega
      simp only [List.map_nil, List.nil_append, List.map_cons, List.cons_append,
        SortKey.compareLists, hearlier, compareStamps]
      rfl
    | cons y ys =>
      rw [List.forall_mem_cons] at hys
      simp only [List.map_cons, List.cons_append, SortKey.compareLists, compareStamps, compare_neg,
        ih hxs.2 hys.2]

theorem compareStamps_eq (xs ys : List Int) :
    compareStamps xs ys = List.compareLex Ord.compare ys xs := by
  induction xs generalizing ys with
  | nil => cases ys <;> rfl
  | cons x xs ih =>
    cases ys with
    | nil => rfl
    | cons y ys => rw [compareStamps, ih, List.compareLex_cons_cons]

/-- The stamps of the one are higher where the two first differ, or they go on behind those of the other. -/
def Leads (xs ys : List Int) : Prop :=
  (∃ common x y later later', xs = common ++ x :: later ∧ ys = common ++ y :: later' ∧ y < x)
    ∨ ∃ x later, xs = ys ++ x :: later

theorem not_leads_nil (ys : List Int) : ¬ Leads [] ys := by
  rintro (⟨common, x, y, later, later', hxs, -⟩ | ⟨x, later, hxs⟩) <;> simp at hxs

theorem leads_nil (x : Int) (xs : List Int) : Leads (x :: xs) [] :=
  .inr ⟨x, xs, rfl⟩

theorem leads_cons {x y : Int} {xs ys : List Int} :
    Leads (x :: xs) (y :: ys) ↔ y < x ∨ x = y ∧ Leads xs ys := by
  constructor
  . rintro (⟨common, p, q, later, later', hxs, hys, hlt⟩ | ⟨p, later, hxs⟩)
    . cases common with
      | nil =>
        cases hxs
        cases hys
        exact .inl hlt
      | cons c common =>
        cases hxs
        cases hys
        exact .inr ⟨rfl, .inl ⟨common, p, q, later, later', rfl, rfl, hlt⟩⟩
    . cases hxs
      exact .inr ⟨rfl, .inr ⟨p, later, rfl⟩⟩
  . rintro (hlt | ⟨rfl, ⟨common, p, q, later, later', rfl, rfl, hlt⟩ | ⟨p, later, rfl⟩⟩)
    . exact .inl ⟨[], x, y, xs, ys, rfl, rfl, hlt⟩
    . exact .inl ⟨x :: common, p, q, later, later', rfl, rfl, hlt⟩
    . exact .inr ⟨p, later, rfl⟩

theorem compareStamps_eq_lt {xs ys : List Int} : compareStamps xs ys = .lt ↔ Leads xs ys := by
  induction xs generalizing ys with
  | nil =>
    refine iff_of_false ?_ (not_leads_nil ys)
    cases ys <;> exact Ordering.noConfusion
  | cons x xs ih =>
    cases ys with
    | nil => exact iff_of_true rfl (leads_nil x xs)
    | cons y ys =>
      rw [compareStamps, Ordering.then_eq_lt, Int.compare_eq_lt, Std.compare_eq_iff_eq, ih, leads_cons,
        @eq_comm Int y x]

theorem compareStamps_eq_eq {xs ys : List Int} : compareStamps xs ys = .eq ↔ xs = ys := by
  rw [compareStamps_eq]
  exact Std.LawfulEqCmp.compare_eq_iff_eq.trans eq_comm

theorem compareLists_eq_lt {xs ys : List Int} : SortKey.compareLists xs ys = .lt ↔ xs < ys := by
  induction xs generalizing ys with
  | nil => cases ys <;> simp [SortKey.compareLists]
  | cons x xs ih =>
    cases ys with
    | nil => simp [SortKey.compareLists]
    | cons y ys =>
      rw [SortKey.compareLists, Ordering.then_eq_lt, Int.compare_eq_lt, Std.compare_eq_iff_eq, ih,
        List.cons_lt_cons_iff]

/-! ### Activations -/

namespace Activation

/--
The order of selection: by priority, by the number of conditions, by recency, by the order of declaration
and by the bound identities.
-/
def compare (a b : Activation) : Ordering :=
  (Ord.compare b.rule.priority a.rule.priority).then <|
  (Ord.compare b.rule.specificity a.rule.specificity).then <|
  (compareStamps a.recency b.recency).then <|
  (Ord.compare a.rule.order b.rule.order).then (SortKey.compareLists a.token b.token)

theorem compare_sortKey {a b : Activation} (ha : ∀ x ∈ a.recency, 0 < x)
    (hb : ∀ x ∈ b.recency, 0 < x) : a.sortKey.compare b.sortKey = a.compare b := by
  simp only [SortKey.compare, sortKey, compare_neg, compare_ofNat, compareLists_stamps ha hb, compare]

theorem compare_eq_compareLex : compare =
    compareLex (fun a b => compareOn (fun c : Activation => c.rule.priority) b a)
      (compareLex (fun a b => compareOn (fun c : Activation => c.rule.specificity) b a)
        (compareLex (fun a b => compareOn Activation.recency b a)
          (compareLex (compareOn fun c : Activation => c.rule.order) (compareOn Activation.token)))) := by
  funext a b
  unfold compare
  rw [compareStamps_eq, SortKey.compareLists_eq]
  rfl

instance : Std.TransCmp compare := by
  have hpriority : Std.TransCmp fun a b => compareOn (fun c : Activation => c.rule.priority) b a :=
    Std.TransCmp.opposite
  have hspecificity : Std.TransCmp fun a b => compareOn (fun c : Activation => c.rule.specificity) b a :=
    Std.TransCmp.opposite
  have hrecency : Std.TransCmp fun a b => compareOn Activation.recency b a :=
    Std.TransCmp.opposite
  rw [compare_eq_compareLex]
  infer_instance

theorem compare_self (a : Activation) : a.compare a = .eq :=
  Std.ReflCmp.compare_self

theorem compare_swap (a b : Activation) : a.compare b = (b.compare a).swap :=
  Std.OrientedCmp.eq_swap

theorem place_of_compare {a b : Activation} (h : a.compare b = .eq) :
    a.rule.order = b.rule.order ∧ a.token = b.token := by
  unfold compare at h
  simp only [Ordering.then_eq_eq, Std.compare_eq_iff_eq, SortKey.compareLists_eq_iff] at h
  exact h.2.2.2

/--
The documented policy: a higher priority, then more conditions, then later stamps, then an earlier
declaration, and last the smaller identities.
-/
def Outranks (a b : Activation) : Prop :=
  b.rule.priority < a.rule.priority ∨ a.rule.priority = b.rule.priority
    ∧ (b.rule.conditions.length < a.rule.conditions.length
      ∨ a.rule.conditions.length = b.rule.conditions.length
    ∧ (Leads a.recency b.recency ∨ a.recency = b.recency
    ∧ (a.rule.order < b.rule.order ∨ a.rule.order = b.rule.order
    ∧ a.token < b.token)))

theorem compare_eq_lt {a b : Activation} : a.compare b = .lt ↔ a.Outranks b := by
  unfold compare Outranks Rule.specificity
  simp only [Ordering.then_eq_lt, Int.compare_eq_lt, Nat.compare_eq_lt, Std.compare_eq_iff_eq,
    compareStamps_eq_lt, compareStamps_eq_eq, compareLists_eq_lt, @eq_comm Int b.rule.priority,
    @eq_comm Nat b.rule.conditions.length]

theorem not_outranks_self (a : Activation) : ¬ a.Outranks a := by
  rw [← compare_eq_lt, compare_self]
  exact Ordering.noConfusion

theorem Outranks.trans {a b c : Activation} (hab : a.Outranks b) (hbc : b.Outranks c) :
    a.Outranks c := by
  rw [← compare_eq_lt] at hab hbc ⊢
  exact Std.TransCmp.lt_trans hab hbc

/-- One of two activations outranks the other, unless they are in one place of the order. -/
theorem outranks_total {a b : Activation}
    (hplace : a.rule.order = b.rule.order → a.token = b.token → a = b) :
    a.Outranks b ∨ a = b ∨ b.Outranks a := by
  cases hcompare : a.compare b with
  | lt => exact .inl (compare_eq_lt.mp hcompare)
  | eq => exact .inr (.inl (hplace (place_of_compare hcompare).1 (place_of_compare hcompare).2))
  | gt =>
    rw [compare_swap, Ordering.swap_eq_gt] at hcompare
    exact .inr (.inr (compare_eq_lt.mp hcompare))

/--
Of activations with positive stamps, the sort key of one is less than that of another if and only if it
outranks the other by the policy. If their rules are declared at different places and their keys are
distinct, the policy is a strict total order on them.
-/
theorem sortKey_selects {pending : Set Activation}
    (hpositive : ∀ a ∈ pending, ∀ stamp ∈ a.recency, 0 < stamp) :
    (∀ a ∈ pending, ∀ b ∈ pending, a.sortKey.compare b.sortKey = .lt ↔ a.Outranks b)
    ∧ ((∀ a ∈ pending, ∀ b ∈ pending, a.rule ≠ b.rule → a.rule.order ≠ b.rule.order) →
      (∀ a ∈ pending, ∀ b ∈ pending, a ≠ b → a.key ≠ b.key) →
      (∀ a ∈ pending, ¬ a.Outranks a)
      ∧ (∀ a ∈ pending, ∀ b ∈ pending, ∀ c ∈ pending, a.Outranks b → b.Outranks c → a.Outranks c)
      ∧ ∀ a ∈ pending, ∀ b ∈ pending, a.Outranks b ∨ a = b ∨ b.Outranks a) := by
  refine ⟨fun a ha b hb => ?_, fun horders hkeys => ⟨fun a _ => a.not_outranks_self, ?_, ?_⟩⟩
  . rw [compare_sortKey (hpositive a ha) (hpositive b hb)]
    exact compare_eq_lt
  . exact fun a _ b _ c _ => Outranks.trans
  . refine fun a ha b hb => outranks_total fun horder htoken => ?_
    have hrule : a.rule = b.rule := Classical.byContradiction fun h => horders a ha b hb h horder
    have hkey : a.key = b.key := by rw [key, key, hrule, htoken]
    exact Classical.byContradiction fun h => hkeys a ha b hb h hkey

/-- Any two items. -/
def pairing : Rule where
  name := "pair"
  conditions := [.pattern { type := "item" } "x", .pattern { type := "item" } "y"]

/-- An item while none is sold, declared behind the pairs. -/
def unsold : Rule where
  name := "unsold"
  order := 1
  conditions := [.pattern { type := "item" } "x", .negation { type := "sale" } []]

/-- Two items in both orders, and the later one of them alone. -/
def waiting : List Activation :=
  [{ rule := unsold, token := [2], recency := [5] },
    { rule := pairing, token := [2, 1], recency := [5, 3] },
    { rule := pairing, token := [1, 2], recency := [5, 3] }]

/-- As many conditions and the same latest stamp: two items come before one of them. -/
theorem sortKey_selects_waiting :
    (∀ a ∈ waiting, a.rule.name = "pair" → ∀ b ∈ waiting, b.rule.name = "unsold" →
      a.sortKey.compare b.sortKey = .lt ∧ a.Outranks b)
    ∧ ∀ a ∈ waiting, ∀ b ∈ waiting, a.Outranks b ∨ a = b ∨ b.Outranks a := by
  have hpositive : ∀ a ∈ waiting, ∀ stamp ∈ a.recency, 0 < stamp := by decide
  obtain ⟨hpolicy, htotal⟩ := @sortKey_selects {a | a ∈ waiting} hpositive
  have horders : ∀ a ∈ waiting, ∀ b ∈ waiting, a.rule ≠ b.rule → a.rule.order ≠ b.rule.order := by
    simp [waiting, pairing, unsold]
  have hkeys : ∀ a ∈ waiting, ∀ b ∈ waiting, a ≠ b → a.key ≠ b.key := by
    simp [waiting, key, pairing, unsold]
  have hpairs : ∀ a ∈ waiting, a.rule.name = "pair" → ∀ b ∈ waiting, b.rule.name = "unsold" →
      a.sortKey.compare b.sortKey = .lt := by
    decide
  refine ⟨fun a ha hpair b hb hunsold => ?_, (htotal horders hkeys).2.2⟩
  have hlt := hpairs a ha hpair b hb hunsold
  exact ⟨hlt, (hpolicy a ha b hb).mp hlt⟩

end Activation

end ForwardChaining
