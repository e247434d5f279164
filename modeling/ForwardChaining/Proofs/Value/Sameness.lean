import Mathlib.Data.Fintype.Card
import Mathlib.Data.Fintype.EquivFin
import ForwardChaining.Value.Key

/-!
This module contains the proof that sameness of values is an equivalence on frozen values, which is
what makes them fit to be keys.
-/

namespace ForwardChaining

namespace Extended

theorem compare_rational_eq_iff (p q : Rat) :
    (rational p).compare (rational q) = .eq ↔ p = q := by
  change (if p < q then Ordering.lt else if p = q then .eq else .gt) = .eq ↔ p = q
  split
  . next hlt =>
    apply iff_of_false (by intro h; cases h)
    intro heq
    rw [heq] at hlt
    exact Rat.lt_irrefl hlt
  . split
    . next heq => exact iff_of_true rfl heq
    . next hne => exact iff_of_false (by intro h; cases h) hne

theorem compare_eq_iff (p q : Extended) : p.compare q = .eq ↔ p = q := by
  cases p with
  | rational p =>
    cases q with
    | rational q => rw [compare_rational_eq_iff, rational.injEq]
    | negInfinity | posInfinity => exact iff_of_false (by intro h; cases h) (by intro h; cases h)
  | negInfinity =>
    cases q with
    | negInfinity => exact iff_of_true rfl rfl
    | rational | posInfinity => exact iff_of_false (by intro h; cases h) (by intro h; cases h)
  | posInfinity =>
    cases q with
    | posInfinity => exact iff_of_true rfl rfl
    | rational | negInfinity => exact iff_of_false (by intro h; cases h) (by intro h; cases h)

end Extended

namespace Number

/-- What decides whether two numbers are the same: the value, or where a NaN comes from. -/
def sense : Number → NanOrigin ⊕ Extended
  | .int n => .inr (.rational n)
  | .float (.nan origin) => .inl origin
  | .float (.infinite true) => .inr .negInfinity
  | .float (.infinite false) => .inr .posInfinity
  | .float (.finite negative m e _) =>
    .inr (.rational (if negative then -((m : Rat) * twoPow e) else (m : Rat) * twoPow e))

theorem value?_eq_of_sense {x : Number} {v : Extended} (h : x.sense = .inr v) :
    x.value? = some v := by
  match x with
  | .int n => simpa [sense, value?] using h
  | .float (.nan origin) => simp [sense] at h
  | .float (.infinite true) => simpa [sense, value?, Binary64.value?] using h
  | .float (.infinite false) => simpa [sense, value?, Binary64.value?] using h
  | .float (.finite negative m e _) => simpa [sense, value?, Binary64.value?] using h

theorem value?_of_nan {x : Number} {origin : NanOrigin} (h : x.sense = .inl origin) :
    x = .float (.nan origin) := by
  match x with
  | .int n => simp [sense] at h
  | .float (.nan o) => simpa [sense] using h
  | .float (.infinite true) => simp [sense] at h
  | .float (.infinite false) => simp [sense] at h
  | .float (.finite negative m e _) => simp [sense] at h

theorem eq_iff_of_values {x y : Number} {p q : Extended} (hx : x.sense = .inr p)
    (hy : y.sense = .inr q) : x.eq y = true ↔ p = q := by
  have hp := value?_eq_of_sense hx
  have hq := value?_eq_of_sense hy
  rw [← Extended.compare_eq_iff]
  match x, y with
  | .int a, .int b =>
    simp only [value?, Option.some.injEq] at hp hq
    subst hp hq
    simp only [eq, compare?, beq_iff_eq, Option.some.injEq, Extended.compare_eq_iff]
    simp
  | .int a, .float b => simp [eq, compare?, hp, hq]
  | .float a, .int b => simp [eq, compare?, hp, hq]
  | .float a, .float b => simp [eq, compare?, hp, hq]

end Number

namespace Value

theorem sameNumber_iff (x y : Number) : sameNumber x y = true ↔ x.sense = y.sense := by
  cases hx : x.sense with
  | inl a =>
    rw [Number.value?_of_nan hx]
    cases hy : y.sense with
    | inl b =>
      rw [Number.value?_of_nan hy]
      simp [sameNumber]
    | inr q =>
      have := Number.value?_eq_of_sense hy
      cases y with
      | int n => simp [sameNumber, Number.eq, Number.compare?, Number.value?, Binary64.value?]
      | float y =>
        cases y with
        | nan => simp [Number.sense] at hy
        | infinite => simp [sameNumber, Number.eq, Number.compare?, Number.value?, Binary64.value?]
        | finite => simp [sameNumber, Number.eq, Number.compare?, Number.value?, Binary64.value?]
  | inr p =>
    cases hy : y.sense with
    | inl b =>
      rw [Number.value?_of_nan hy]
      cases x with
      | int n => simp [sameNumber, Number.eq, Number.compare?, Number.value?, Binary64.value?]
      | float x =>
        cases x with
        | nan => simp [Number.sense] at hx
        | infinite => simp [sameNumber, Number.eq, Number.compare?, Number.value?, Binary64.value?]
        | finite => simp [sameNumber, Number.eq, Number.compare?, Number.value?, Binary64.value?]
    | inr q =>
      have : sameNumber x y = x.eq y := by
        unfold sameNumber
        split
        . simp [Number.sense] at hx
        . rfl
      rw [this, Number.eq_iff_of_values hx hy, Sum.inr.injEq]

/-! ### Containers -/

attribute [local simp] same sameItems subset sameFields

theorem sameItems_iff (xs ys : List Value) :
    sameItems xs ys = true ↔ List.Forall₂ (fun x y => same x y = true) xs ys := by
  induction xs generalizing ys with
  | nil => cases ys <;> simp
  | cons x xs ih => cases ys <;> simp [ih]

theorem subset_iff (xs ys : List Value) :
    subset xs ys = true ↔ ∀ x ∈ xs, ∃ y ∈ ys, same x y = true := by
  induction xs with
  | nil => simp
  | cons x xs ih => simp [ih]

theorem sameFields_iff (xs ys : List (String × Value)) :
    sameFields xs ys = true
      ↔ ∀ field ∈ xs, ∃ y, ys.lookup field.1 = some y ∧ same field.2 y = true := by
  induction xs with
  | nil => simp
  | cons field xs ih =>
    obtain ⟨k, x⟩ := field
    simp only [sameFields, Bool.and_eq_true, ih, List.mem_cons, forall_eq_or_imp]
    cases ys.lookup k <;> simp

theorem same_of_number {x : Value} {p : Number} (h : x.number? = some p) (y : Value) :
    same x y = y.number?.any (sameNumber p) := by
  cases x with
  | bool b =>
    simp only [number?, Option.some.injEq] at h
    cases y <;> simp [h]
  | int n =>
    simp only [number?, Option.some.injEq] at h
    cases y <;> simp [h]
  | float x =>
    simp only [number?, Option.some.injEq] at h
    cases y <;> simp [h]
  | _ => simp [number?] at h

theorem same_number_iff {x y : Value} {p : Number} (h : x.number? = some p) :
    same x y = true ↔ ∃ q, y.number? = some q ∧ p.sense = q.sense := by
  rw [same_of_number h]
  cases y.number? <;> simp [sameNumber_iff]

/-- The values that stand directly in a container. -/
def parts : Value → List Value
  | .list items | .tuple items | .set items => items
  | .record fields => fields.map (·.2)
  | _ => []

theorem sizeOf_lt_of_mem_parts {x y : Value} (h : y ∈ x.parts) : sizeOf y < sizeOf x := by
  cases x with
  | list items | tuple items | set items =>
    have := List.sizeOf_lt_of_mem (show y ∈ items from h)
    simp only [list.sizeOf_spec, tuple.sizeOf_spec, set.sizeOf_spec]
    omega
  | record fields =>
    obtain ⟨⟨k, z⟩, hmem, rfl⟩ := List.mem_map.mp h
    have := List.sizeOf_lt_of_mem hmem
    simp only [record.sizeOf_spec, Prod.mk.sizeOf_spec] at *
    omega
  | _ => simp [parts] at h

theorem induction_on_parts {motive : Value → Prop}
    (step : ∀ x, (∀ y ∈ x.parts, motive y) → motive x) (x : Value) : motive x :=
  step x fun y h =>
    have := sizeOf_lt_of_mem_parts h
    induction_on_parts step y
termination_by sizeOf x

theorem sameItems_trans {xs ys zs : List Value}
    (h : ∀ x ∈ xs, ∀ y z, same x y = true → same y z = true → same x z = true)
    (hxy : sameItems xs ys = true) (hyz : sameItems ys zs = true) : sameItems xs zs = true := by
  induction xs generalizing ys zs with
  | nil =>
    cases ys
    . exact hyz
    . simp at hxy
  | cons x xs ih =>
    cases ys with
    | nil => simp at hxy
    | cons y ys =>
      cases zs with
      | nil => simp at hyz
      | cons z zs =>
        simp only [sameItems, Bool.and_eq_true] at hxy hyz ⊢
        exact ⟨h x (by simp) y z hxy.1 hyz.1,
          ih (fun a ha => h a (by simp [ha])) hxy.2 hyz.2⟩

theorem same_trans (x : Value) :
    ∀ y z, same x y = true → same y z = true → same x z = true := by
  induction x using induction_on_parts with
  | step x ih =>
    intro y z hxy hyz
    -- A number is the same as numbers of other kinds, so numbers go before the kinds.
    cases hx : x.number? with
    | some p =>
      obtain ⟨q, hy, hpq⟩ := (same_number_iff hx).mp hxy
      obtain ⟨r, hz, hqr⟩ := (same_number_iff hy).mp hyz
      exact (same_number_iff hx).mpr ⟨r, hz, hpq.trans hqr⟩
    | none =>
      cases x with
      | bool | int | float => simp [number?] at hx
      | null =>
        cases y <;> simp only [same, Bool.false_eq_true] at hxy
        exact hyz
      | text s =>
        cases y <;> simp only [same, Bool.false_eq_true, beq_iff_eq] at hxy
        rw [hxy]
        exact hyz
      | callable ident name =>
        cases y <;> simp only [same, Bool.false_eq_true, beq_iff_eq] at hxy
        cases z <;> simp only [same, Bool.false_eq_true, beq_iff_eq] at hyz
        simp only [same, beq_iff_eq]
        exact hxy.trans hyz
      | list xs =>
        cases y <;> simp only [same, Bool.false_eq_true] at hxy
        cases z <;> simp only [same, Bool.false_eq_true] at hyz
        simp only [same]
        exact sameItems_trans ih hxy hyz
      | tuple xs =>
        cases y <;> simp only [same, Bool.false_eq_true] at hxy
        cases z <;> simp only [same, Bool.false_eq_true] at hyz
        simp only [same]
        exact sameItems_trans ih hxy hyz
      | set xs =>
        cases y <;> simp only [same, Bool.false_eq_true] at hxy
        cases z <;> simp only [same, Bool.false_eq_true] at hyz
        simp only [same, Bool.and_eq_true, beq_iff_eq, subset_iff] at hxy hyz ⊢
        refine ⟨hxy.1.trans hyz.1, ?_⟩
        intro a ha
        obtain ⟨b, hb, hab⟩ := hxy.2 a ha
        obtain ⟨c, hc, hbc⟩ := hyz.2 b hb
        exact ⟨c, hc, ih a ha b c hab hbc⟩
      | record xs =>
        cases y <;> simp only [same, Bool.false_eq_true] at hxy
        cases z <;> simp only [same, Bool.false_eq_true] at hyz
        simp only [same, Bool.and_eq_true, beq_iff_eq, sameFields_iff] at hxy hyz ⊢
        refine ⟨hxy.1.trans hyz.1, ?_⟩
        intro field hfield
        obtain ⟨b, hb, hab⟩ := hxy.2 field hfield
        obtain ⟨before, after, hys, -⟩ := List.lookup_eq_some_iff.mp hb
        obtain ⟨c, hc, hbc⟩ := hyz.2 (field.1, b) (by simp [hys])
        exact ⟨c, hc, ih field.2 (List.mem_map_of_mem hfield) b c hab hbc⟩

/-! ### Frozen values -/

/-- The values that can be keys: no lists and no records, and sets without repetition. -/
inductive Frozen : Value → Prop where
  | null : Frozen .null
  | bool (b : Bool) : Frozen (.bool b)
  | int (n : Int) : Frozen (.int n)
  | float (x : Binary64) : Frozen (.float x)
  | text (s : String) : Frozen (.text s)
  | callable (ident : Nat) (name : String) : Frozen (.callable ident name)
  | tuple {items : List Value} (h : ∀ x ∈ items, Frozen x) : Frozen (.tuple items)
  | set {items : List Value} (h : ∀ x ∈ items, Frozen x)
    (apart : items.Pairwise fun x y => same x y = false) : Frozen (.set items)

theorem forall₂_imp_of_mem {R S : α → β → Prop} {xs : List α} {ys : List β}
    (h : ∀ x ∈ xs, ∀ y ∈ ys, R x y → S x y) (hxy : List.Forall₂ R xs ys) : List.Forall₂ S xs ys := by
  induction hxy with
  | nil => exact .nil
  | cons hab _ ih =>
    exact .cons (h _ (by simp) _ (by simp) hab)
      (ih fun x hx y hy => h x (by simp [hx]) y (by simp [hy]))

theorem forall₂_symm_of_mem {R : α → α → Prop} {xs ys : List α}
    (h : ∀ x ∈ xs, ∀ y ∈ ys, R x y → R y x) (hxy : List.Forall₂ R xs ys) : List.Forall₂ R ys xs :=
  (forall₂_imp_of_mem h hxy : List.Forall₂ (fun x y => R y x) xs ys).flip

/--
A set that is a part of another one with as many items is all of it: the items of the first are
apart, so each meets an item of its own.
-/
theorem subset_symm {xs ys : List Value} (hlen : xs.length = ys.length)
    (apart : xs.Pairwise fun x y => same x y = false)
    (symm : ∀ x ∈ xs, ∀ y ∈ ys, same x y = true → same y x = true)
    (hsub : ∀ x ∈ xs, ∃ y ∈ ys, same x y = true) : ∀ y ∈ ys, ∃ x ∈ xs, same y x = true := by
  have hmeet : ∀ i : Fin xs.length, ∃ j : Fin ys.length, same xs[i] ys[j] = true := by
    intro i
    obtain ⟨y, hy, hxy⟩ := hsub xs[i] (List.getElem_mem i.isLt)
    obtain ⟨j, hj, rfl⟩ := List.mem_iff_getElem.mp hy
    exact ⟨⟨j, hj⟩, hxy⟩
  choose meet hmeet using hmeet
  have hlt : ∀ i j : Fin xs.length, meet i = meet j → ¬ i < j := by
    intro i j hij hlt
    have hi := hmeet i
    have hj := symm _ (List.getElem_mem j.isLt) _ (List.getElem_mem (meet j).isLt) (hmeet j)
    rw [hij] at hi
    have hsame := same_trans _ _ _ hi hj
    have hdiffer := List.pairwise_iff_getElem.mp apart i j i.isLt j.isLt hlt
    exact Bool.noConfusion (hdiffer.symm.trans hsame)
  have hinj : Function.Injective meet := by
    intro i j hij
    have := hlt i j hij
    have := hlt j i hij.symm
    omega
  have hsurj : Function.Surjective meet :=
    ((Fintype.bijective_iff_injective_and_card meet).mpr ⟨hinj, by simp [hlen]⟩).2
  intro y hy
  obtain ⟨j, hj, rfl⟩ := List.mem_iff_getElem.mp hy
  obtain ⟨i, hi⟩ := hsurj ⟨j, hj⟩
  refine ⟨xs[i], List.getElem_mem i.isLt, symm _ (List.getElem_mem i.isLt) _ hy ?_⟩
  have := hmeet i
  rw [hi] at this
  exact this

namespace Frozen

theorem same_refl {x : Value} (hx : Frozen x) : same x x = true := by
  induction hx with
  | null | text | callable => simp
  | bool | int | float => exact (same_number_iff rfl).mpr ⟨_, rfl, rfl⟩
  | tuple _ ih =>
    simp only [same, sameItems_iff]
    exact List.forall₂_same.mpr ih
  | set _ _ ih =>
    simp only [same, beq_self_eq_true, Bool.true_and, subset_iff]
    exact fun x hx => ⟨x, hx, ih x hx⟩

theorem same_symm {x : Value} (hx : Frozen x) :
    ∀ y, Frozen y → same x y = true → same y x = true := by
  induction hx with
  | null =>
    intro y _ hxy
    cases y <;> simp only [same, Bool.false_eq_true] at hxy
    rfl
  | text s =>
    intro y _ hxy
    cases y <;> simp only [same, Bool.false_eq_true, beq_iff_eq] at hxy
    simp [same, hxy]
  | callable =>
    intro y _ hxy
    cases y <;> simp only [same, Bool.false_eq_true, beq_iff_eq] at hxy
    simp [same, hxy]
  | bool | int | float =>
    intro y _ hxy
    obtain ⟨q, hq, hpq⟩ := (same_number_iff rfl).mp hxy
    exact (same_number_iff hq).mpr ⟨_, rfl, hpq.symm⟩
  | tuple _ ih =>
    intro y hy hxy
    cases hy <;> simp only [same, Bool.false_eq_true, sameItems_iff] at hxy
    . next hys =>
      simp only [same, sameItems_iff]
      exact forall₂_symm_of_mem (fun a ha b hb => ih a ha b (hys b hb)) hxy
  | set _ apart ih =>
    intro y hy hxy
    cases hy <;> simp only [same, Bool.false_eq_true, Bool.and_eq_true, beq_iff_eq,
      subset_iff] at hxy
    . next hys _ =>
      simp only [same, Bool.and_eq_true, beq_iff_eq, subset_iff]
      exact ⟨hxy.1.symm,
        subset_symm hxy.1 apart (fun a ha b hb => ih a ha b (hys b hb)) hxy.2⟩

end Frozen

theorem mem_of_mem_distinct {items : List Value} {x : Value} (h : x ∈ distinct items) :
    x ∈ items := by
  have hfold : ∀ (items seen : List Value),
      x ∈ items.foldl (fun seen x => if isIn x seen then seen else seen ++ [x]) seen →
        x ∈ seen ∨ x ∈ items := by
    intro items
    induction items with
    | nil => simp
    | cons y items ih =>
      intro seen hx
      rw [List.foldl_cons] at hx
      split at hx
      . have := ih seen hx
        grind
      . have := ih (seen ++ [y]) hx
        grind
  simpa using hfold items [] h

theorem pairwise_distinct {items : List Value} (h : ∀ x ∈ items, Frozen x) :
    (distinct items).Pairwise fun x y => same x y = false := by
  have hfold : ∀ (items seen : List Value), (∀ x ∈ items, Frozen x) → (∀ x ∈ seen, Frozen x) →
      (seen.Pairwise fun x y => same x y = false) →
        (items.foldl (fun seen x => if isIn x seen then seen else seen ++ [x]) seen).Pairwise
          fun x y => same x y = false := by
    intro items
    induction items with
    | nil => exact fun seen _ _ apart => apart
    | cons y items ih =>
      intro seen hitems hseen apart
      rw [List.foldl_cons]
      apply ih _ (fun x hx => hitems x (by simp [hx]))
      . intro x hx
        split at hx
        . exact hseen x hx
        . rw [List.mem_append, List.mem_singleton] at hx
          exact hx.elim (hseen x) fun heq => heq ▸ hitems y (by simp)
      . split
        . exact apart
        . next hnew =>
          simp only [isIn, List.any_eq_true, not_exists, not_and, Bool.not_eq_true] at hnew
          refine List.pairwise_append.mpr ⟨apart, by simp, ?_⟩
          intro x hx z hz
          rw [List.mem_singleton] at hz
          subst hz
          rw [Bool.eq_false_iff]
          intro hxz
          have := (hseen x hx).same_symm z (hitems z (by simp)) hxz
          rw [hnew x hx] at this
          exact Bool.noConfusion this
  exact hfold items [] h (by simp) .nil

mutual

theorem frozen_frozen : (x : Value) → Frozen x.frozen
  | .null => .null
  | .bool b => .bool b
  | .int n => .int n
  | .float x => .float x
  | .text s => .text s
  | .callable ident name => .callable ident name
  | .list items => .tuple (frozen_frozenItems items)
  | .tuple items => .tuple (frozen_frozenItems items)
  | .set items =>
    .set (fun _ h => frozen_frozenItems items _ (mem_of_mem_distinct h))
      (pairwise_distinct (frozen_frozenItems items))
  | .record fields => by
    refine .tuple ?_
    intro y hy
    obtain ⟨⟨k, x⟩, hmem, rfl⟩ := List.mem_map.mp hy
    refine .tuple ?_
    intro z hz
    have hx := frozen_frozenFields fields (k, x) (List.mem_mergeSort.mp hmem)
    simp only [List.mem_cons, List.not_mem_nil, or_false] at hz
    rcases hz with rfl | rfl
    . exact .text k
    . exact hx

theorem frozen_frozenItems : (items : List Value) → ∀ x ∈ frozenItems items, Frozen x
  | [] => by simp [frozenItems]
  | x :: xs => by
    simp only [frozenItems, List.mem_cons, forall_eq_or_imp]
    exact ⟨frozen_frozen x, frozen_frozenItems xs⟩

theorem frozen_frozenFields :
    (fields : List (String × Value)) → ∀ field ∈ frozenFields fields, Frozen field.2
  | [] => by simp [frozenFields]
  | (k, x) :: xs => by
    simp only [frozenFields, List.mem_cons, forall_eq_or_imp]
    exact ⟨frozen_frozen x, frozen_frozenFields xs⟩

end

/-- The value is a NaN, which equals nothing. -/
def IsNaN (x : Value) : Prop :=
  ∃ origin, x = .float (.nan origin)

theorem eq_iff (x y : Value) : x.eq y = true ↔ same x y = true ∧ ¬ x.IsNaN := by
  unfold eq
  split
  . next origin => exact iff_of_false Bool.noConfusion fun h => h.2 ⟨origin, rfl⟩
  . next hnan =>
    have hnone : ¬ x.IsNaN := fun ⟨origin, horigin⟩ => hnan origin horigin
    rw [and_iff_left hnone]

end Value
end ForwardChaining
