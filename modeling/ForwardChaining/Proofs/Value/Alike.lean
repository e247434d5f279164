import ForwardChaining.Operator
import ForwardChaining.Proofs.Value.Literal

/-!
This module contains values that are alike: they differ only in what their literals do not tell. No
operator tells them apart on values that hold none of their NaNs.
-/

namespace ForwardChaining

namespace Value

mutual

/-- Where the NaNs in a value come from. -/
def nans : Value → List NanOrigin
  | .float (.nan origin) => [origin]
  | .list items => nansOfItems items
  | .tuple items => nansOfItems items
  | .set items => nansOfItems items
  | .record fields => nansOfFields fields
  | _ => []
termination_by structural x => x

/-- Where the NaNs in items come from. -/
def nansOfItems : List Value → List NanOrigin
  | [] => []
  | x :: xs => nans x ++ nansOfItems xs
termination_by structural x => x

/-- Where the NaNs in fields come from. -/
def nansOfFields : List (String × Value) → List NanOrigin
  | [] => []
  | (_, x) :: xs => nans x ++ nansOfFields xs
termination_by structural x => x

end

/-- The values have no NaN in common. -/
def Apart (z x : Value) : Prop :=
  ∀ origin ∈ z.nans, origin ∉ x.nans

theorem nans_of_mem_items {x : Value} {items : List Value} (h : x ∈ items) :
    ∀ origin ∈ x.nans, origin ∈ nansOfItems items := by
  induction items with
  | nil => cases h
  | cons y ys ih =>
    intro origin horigin
    rw [nansOfItems, List.mem_append]
    rcases List.mem_cons.mp h with rfl | h
    . exact .inl horigin
    . exact .inr (ih h origin horigin)

theorem nans_of_mem_fields {field : String × Value} {fields : List (String × Value)}
    (h : field ∈ fields) : ∀ origin ∈ field.2.nans, origin ∈ nansOfFields fields := by
  induction fields with
  | nil => cases h
  | cons other others ih =>
    intro origin horigin
    rw [nansOfFields, List.mem_append]
    rcases List.mem_cons.mp h with rfl | h
    . exact .inl horigin
    . exact .inr (ih h origin horigin)

theorem nans_of_mem_parts {x y : Value} (h : y ∈ x.parts) : ∀ origin ∈ y.nans, origin ∈ x.nans := by
  cases x with
  | list items => exact nans_of_mem_items h
  | tuple items => exact nans_of_mem_items h
  | set items => exact nans_of_mem_items h
  | record fields =>
    obtain ⟨field, hfield, rfl⟩ := List.mem_map.mp h
    exact nans_of_mem_fields hfield
  | _ => simp [parts] at h

theorem Apart.parts {z x z' x' : Value} (h : z.Apart x) (hz : z' ∈ z.parts) (hx : x' ∈ x.parts) :
    z'.Apart x' :=
  fun origin hmem hmem' => h origin (nans_of_mem_parts hz origin hmem)
    (nans_of_mem_parts hx origin hmem')

theorem Apart.parts_left {z x z' : Value} (h : z.Apart x) (hz : z' ∈ z.parts) : z'.Apart x :=
  fun origin hmem => h origin (nans_of_mem_parts hz origin hmem)

theorem Apart.parts_right {z x x' : Value} (h : z.Apart x) (hx : x' ∈ x.parts) : z.Apart x' :=
  fun origin hmem hmem' => h origin hmem (nans_of_mem_parts hx origin hmem')

/-! ### Values with the same literal -/

/-- How values with the same literal can be. -/
inductive Alike : Value → Value → Prop where
  | refl (x : Value) : Alike x x
  | nan (a b : NanOrigin) : Alike (.float (.nan a)) (.float (.nan b))
  | callable (ident : Nat) (name name' : String) :
    Alike (.callable ident name) (.callable ident name')
  | list {xs ys : List Value} (h : xs.map erase = ys.map erase) : Alike (.list xs) (.list ys)
  | tuple {xs ys : List Value} (h : xs.map erase = ys.map erase) : Alike (.tuple xs) (.tuple ys)
  | set {xs ys : List Value} (h : xs.map erase = ys.map erase) : Alike (.set xs) (.set ys)
  | record {fs gs : List (String × Value)}
    (h : (fs.map fun f => (f.1, f.2.erase)) = gs.map fun g => (g.1, g.2.erase)) :
    Alike (.record fs) (.record gs)

theorem alike_of_erase {x y : Value} (h : x.erase = y.erase) : Alike x y := by
  -- Erasing keeps the kind of a value, so only values of one kind are left.
  cases x <;> cases y <;> simp only [erase, eraseItems_eq_map, eraseFields_eq_map, reduceCtorEq,
    bool.injEq, int.injEq, float.injEq, text.injEq, list.injEq, tuple.injEq, set.injEq,
    record.injEq, callable.injEq] at h
  case null.null => exact .refl _
  case bool.bool | int.int | text.text => exact h ▸ .refl _
  case float.float p q =>
    cases p <;> cases q <;> simp only [Binary64.erase, reduceCtorEq] at h
    . exact .nan _ _
    . exact h ▸ .refl _
    . exact h ▸ .refl _
  case list.list => exact .list h
  case tuple.tuple => exact .tuple h
  case set.set => exact .set h
  case record.record => exact .record h
  case callable.callable => exact h.1 ▸ .callable _ _ _

/-! ### Sameness -/

/-- Sameness does not tell two values apart, on either side of another value. -/
def SameBeside (z x y : Value) : Prop :=
  same z x = same z y ∧ same x z = same y z

theorem same_nan {z : Value} {a : NanOrigin} (h : a ∉ z.nans) :
    same z (.float (.nan a)) = false ∧ same (.float (.nan a)) z = false := by
  have hsense : ∀ p, z.number? = some p → p.sense ≠ .inl a := by
    intro p hp heq
    cases z with
    | float x =>
      cases hp
      cases Number.value?_of_nan heq
      exact h List.mem_cons_self
    | bool b | int n =>
      cases hp
      cases heq
    | _ => cases hp
  constructor
  . cases hp : z.number? with
    | none => cases z <;> simp_all [same, number?]
    | some p =>
      rw [Bool.eq_false_iff]
      intro hsame
      obtain ⟨q, hq, heq⟩ := (same_number_iff hp).mp hsame
      cases hq
      exact hsense p hp heq
  . rw [Bool.eq_false_iff]
    intro hsame
    obtain ⟨q, hq, heq⟩ := (same_number_iff (x := .float (.nan a)) rfl).mp hsame
    exact hsense q hq heq.symm

theorem sameItems_congr {zs xs ys : List Value} (h : xs.map erase = ys.map erase)
    (hbeside : ∀ z ∈ zs, ∀ x ∈ xs, ∀ y ∈ ys, x.erase = y.erase → SameBeside z x y) :
    sameItems zs xs = sameItems zs ys ∧ sameItems xs zs = sameItems ys zs := by
  induction zs generalizing xs ys with
  | nil =>
    cases xs <;> cases ys <;> simp [sameItems] at h ⊢
  | cons z zs ih =>
    cases xs with
    | nil =>
      cases ys with
      | nil => exact ⟨rfl, rfl⟩
      | cons y ys => simp at h
    | cons x xs =>
      cases ys with
      | nil => simp at h
      | cons y ys =>
        rw [List.map_cons, List.map_cons, List.cons.injEq] at h
        obtain ⟨hleft, hright⟩ := hbeside z (by simp) x (by simp) y (by simp) h.1
        obtain ⟨hlefts, hrights⟩ := ih h.2 fun z' hz x' hx y' hy =>
          hbeside z' (by simp [hz]) x' (by simp [hx]) y' (by simp [hy])
        exact ⟨by rw [sameItems, sameItems, hleft, hlefts],
          by rw [sameItems, sameItems, hright, hrights]⟩

theorem any_congr {f : Value → Bool} {xs ys : List Value} (h : xs.map erase = ys.map erase)
    (hf : ∀ x ∈ xs, ∀ y ∈ ys, x.erase = y.erase → f x = f y) : xs.any f = ys.any f := by
  induction xs generalizing ys with
  | nil =>
    cases ys with
    | nil => rfl
    | cons y ys => simp at h
  | cons x xs ih =>
    cases ys with
    | nil => simp at h
    | cons y ys =>
      rw [List.map_cons, List.map_cons, List.cons.injEq] at h
      rw [List.any_cons, List.any_cons, hf x (by simp) y (by simp) h.1,
        ih h.2 fun x' hx y' hy => hf x' (by simp [hx]) y' (by simp [hy])]

theorem subset_eq_all (xs ys : List Value) :
    subset xs ys = xs.all fun x => ys.any (same x ·) := by
  induction xs with
  | nil => rfl
  | cons x xs ih => rw [subset, ih, List.all_cons]

theorem subset_congr {zs xs ys : List Value} (h : xs.map erase = ys.map erase)
    (hbeside : ∀ z ∈ zs, ∀ x ∈ xs, ∀ y ∈ ys, x.erase = y.erase → SameBeside z x y) :
    subset zs xs = subset zs ys ∧ subset xs zs = subset ys zs := by
  have hany : ∀ z ∈ zs, xs.any (same z ·) = ys.any (same z ·) := fun z hz =>
    any_congr h fun x hx y hy heq => (hbeside z hz x hx y hy heq).1
  have hanys : ∀ x ∈ xs, ∀ y ∈ ys, x.erase = y.erase → zs.any (same x ·) = zs.any (same y ·) := by
    intro x hx y hy heq
    rw [Bool.eq_iff_iff, List.any_eq_true, List.any_eq_true]
    constructor <;> rintro ⟨z, hz, hsame⟩ <;> refine ⟨z, hz, ?_⟩
    . rw [← (hbeside z hz x hx y hy heq).2, hsame]
    . rw [(hbeside z hz x hx y hy heq).2, hsame]
  rw [subset_eq_all, subset_eq_all, subset_eq_all, subset_eq_all]
  constructor
  . rw [Bool.eq_iff_iff, List.all_eq_true, List.all_eq_true]
    constructor <;> intro hall z hz
    . rw [← hany z hz, hall z hz]
    . rw [hany z hz, hall z hz]
  . rw [List.all_eq_not_any_not, List.all_eq_not_any_not]
    congr 1
    exact any_congr h fun x hx y hy heq => by rw [hanys x hx y hy heq]

theorem lookup_congr {fs gs : List (String × Value)}
    (h : (fs.map fun f => (f.1, f.2.erase)) = gs.map fun g => (g.1, g.2.erase)) (key : String) :
    (fs.lookup key = none ∧ gs.lookup key = none)
      ∨ ∃ x y, fs.lookup key = some x ∧ gs.lookup key = some y ∧ x.erase = y.erase
        ∧ (key, x) ∈ fs ∧ (key, y) ∈ gs := by
  induction fs generalizing gs with
  | nil =>
    cases gs with
    | nil => exact .inl ⟨rfl, rfl⟩
    | cons g gs => simp at h
  | cons f fs ih =>
    obtain ⟨k, x⟩ := f
    cases gs with
    | nil => simp at h
    | cons g gs =>
      obtain ⟨k', y⟩ := g
      rw [List.map_cons, List.map_cons, List.cons.injEq, Prod.mk.injEq] at h
      obtain ⟨⟨hkey, heq⟩, hrest⟩ := h
      dsimp only at hkey
      subst hkey
      by_cases hk : key = k
      . subst hk
        exact .inr ⟨x, y, by simp, by simp, heq, by simp, by simp⟩
      . have hne : (key == k) = false := by simpa using hk
        rw [List.lookup_cons, List.lookup_cons, hne]
        rcases ih hrest with hnone | ⟨x', y', hx', hy', heq', hmem, hmem'⟩
        . exact .inl hnone
        . exact .inr ⟨x', y', hx', hy', heq', List.mem_cons_of_mem _ hmem,
            List.mem_cons_of_mem _ hmem'⟩

theorem sameFields_eq_all (xs ys : List (String × Value)) :
    sameFields xs ys = xs.all fun field => (ys.lookup field.1).any (same field.2 ·) := by
  induction xs with
  | nil => rfl
  | cons field xs ih =>
    obtain ⟨k, x⟩ := field
    rw [sameFields, ih, List.all_cons]
    cases ys.lookup k <;> rfl

theorem sameFields_congr {zs fs gs : List (String × Value)}
    (h : (fs.map fun f => (f.1, f.2.erase)) = gs.map fun g => (g.1, g.2.erase))
    (hbeside : ∀ z ∈ zs, ∀ f ∈ fs, ∀ g ∈ gs, f.2.erase = g.2.erase → SameBeside z.2 f.2 g.2) :
    sameFields zs fs = sameFields zs gs ∧ sameFields fs zs = sameFields gs zs := by
  rw [sameFields_eq_all, sameFields_eq_all, sameFields_eq_all, sameFields_eq_all]
  constructor
  . have hfield : ∀ z ∈ zs, (fs.lookup z.1).any (same z.2 ·) = (gs.lookup z.1).any (same z.2 ·) := by
      intro z hz
      rcases lookup_congr h z.1 with ⟨hfs, hgs⟩ | ⟨x, y, hfs, hgs, heq, hmem, hmem'⟩
      . rw [hfs, hgs]
      . rw [hfs, hgs]
        exact (hbeside z hz _ hmem _ hmem' heq).1
    rw [Bool.eq_iff_iff, List.all_eq_true, List.all_eq_true]
    constructor <;> intro hall z hz
    . rw [← hfield z hz, hall z hz]
    . rw [hfield z hz, hall z hz]
  . induction fs generalizing gs with
    | nil =>
      cases gs with
      | nil => rfl
      | cons g gs => simp at h
    | cons f fs ih =>
      cases gs with
      | nil => simp at h
      | cons g gs =>
        rw [List.map_cons, List.map_cons, List.cons.injEq, Prod.mk.injEq] at h
        obtain ⟨⟨hkey, heq⟩, hrest⟩ := h
        rw [List.all_cons, List.all_cons, hkey, ih hrest fun z hz f' hf g' hg =>
          hbeside z hz f' (by simp [hf]) g' (by simp [hg])]
        congr 1
        cases hlookup : zs.lookup g.1 with
        | none => rfl
        | some z =>
          rcases lookup_congr (rfl : (zs.map fun z => (z.1, z.2.erase)) = _) g.1 with
            ⟨hnone, -⟩ | ⟨z', -, hz', -, -, hmem, -⟩
          . rw [hlookup] at hnone
            cases hnone
          . rw [hlookup, Option.some.injEq] at hz'
            subst hz'
            exact (hbeside _ hmem f (by simp) g (by simp) heq).2

theorem same_congr (z : Value) :
    ∀ {x y : Value}, x.erase = y.erase → z.Apart x → z.Apart y → SameBeside z x y := by
  induction z using induction_on_parts with
  | step z ih =>
    intro x y h hx hy
    have hparts : ∀ z' ∈ z.parts, ∀ x' ∈ x.parts, ∀ y' ∈ y.parts, x'.erase = y'.erase →
        SameBeside z' x' y' := fun z' hz' x' hx' y' hy' heq =>
      ih z' hz' heq (hx.parts hz' hx') (hy.parts hz' hy')
    cases alike_of_erase h with
    | refl => exact ⟨rfl, rfl⟩
    | nan a b =>
      have ha : a ∉ z.nans := fun hmem => hx a hmem List.mem_cons_self
      have hb : b ∉ z.nans := fun hmem => hy b hmem List.mem_cons_self
      exact ⟨(same_nan ha).1.trans (same_nan hb).1.symm, (same_nan ha).2.trans (same_nan hb).2.symm⟩
    | callable ident name name' => constructor <;> cases z <;> rfl
    | @list xs ys hitems =>
      cases z with
      | list zs => exact sameItems_congr hitems hparts
      | _ => constructor <;> rfl
    | @tuple xs ys hitems =>
      cases z with
      | tuple zs => exact sameItems_congr hitems hparts
      | _ => constructor <;> rfl
    | @set xs ys hitems =>
      cases z with
      | set zs =>
        have hlength : xs.length = ys.length := by
          simpa using congrArg List.length hitems
        obtain ⟨hleft, hright⟩ := @subset_congr zs xs ys hitems hparts
        exact ⟨by rw [same, same, hlength, hleft], by rw [same, same, hlength, hright]⟩
      | _ => constructor <;> rfl
    | @record fs gs hfields =>
      cases z with
      | record zs =>
        have hlength : fs.length = gs.length := by
          simpa using congrArg List.length hfields
        obtain ⟨hleft, hright⟩ := sameFields_congr hfields fun z' hz' f hf g hg heq =>
          hparts z'.2 (List.mem_map.mpr ⟨z', hz', rfl⟩) f.2 (List.mem_map.mpr ⟨f, hf, rfl⟩) g.2
            (List.mem_map.mpr ⟨g, hg, rfl⟩) heq
        exact ⟨by rw [same, same, hlength, hleft], by rw [same, same, hlength, hright]⟩
      | _ => constructor <;> rfl

theorem isIn_congr {z : Value} {xs ys : List Value} (h : xs.map erase = ys.map erase)
    (hx : ∀ x ∈ xs, z.Apart x) (hy : ∀ y ∈ ys, z.Apart y) : z.isIn xs = z.isIn ys :=
  any_congr h fun x hmem y hmem' heq => (same_congr z heq (hx x hmem) (hy y hmem')).1

theorem isIn_congr_left {x y : Value} {zs : List Value} (h : x.erase = y.erase)
    (hx : ∀ z ∈ zs, z.Apart x) (hy : ∀ z ∈ zs, z.Apart y) : x.isIn zs = y.isIn zs := by
  unfold isIn
  rw [Bool.eq_iff_iff, List.any_eq_true, List.any_eq_true]
  constructor <;> rintro ⟨z, hz, hsame⟩ <;> refine ⟨z, hz, ?_⟩
  . rw [← (same_congr z h (hx z hz) (hy z hz)).2, hsame]
  . rw [(same_congr z h (hx z hz) (hy z hz)).2, hsame]

/-! ### Order and membership -/

theorem compare?_nan (p : Number) (a : NanOrigin) : p.compare? (.float (.nan a)) = none := by
  have hnan : (Number.float (.nan a)).value? = none := rfl
  cases p with
  | int n => rfl
  | float x =>
    simp only [Number.compare?, hnan]
    cases (Number.float x).value? <;> rfl

theorem relate_nan (r : Relation) (z : Value) (a b : NanOrigin) :
    relate r z (.float (.nan a)) = relate r z (.float (.nan b)) := by
  have hatoms : ∀ a, relate r z (.float (.nan a)) = relateAtoms r z (.float (.nan a)) := by
    intro a
    cases z <;> rfl
  rw [hatoms, hatoms]
  cases z <;> simp only [relateAtoms, number?, typeName, compare?_nan]

theorem relateItems_congr {r : Relation} {zs xs ys : List Value}
    (h : xs.map erase = ys.map erase)
    (hbeside : ∀ z ∈ zs, ∀ x ∈ xs, ∀ y ∈ ys, x.erase = y.erase →
      same z x = same z y ∧ relate r z x = relate r z y) :
    relateItems r zs xs = relateItems r zs ys := by
  induction zs generalizing xs ys with
  | nil => cases xs <;> cases ys <;> simp [relateItems] at h ⊢
  | cons z zs ih =>
    cases xs with
    | nil =>
      cases ys with
      | nil => rfl
      | cons y ys => simp at h
    | cons x xs =>
      cases ys with
      | nil => simp at h
      | cons y ys =>
        rw [List.map_cons, List.map_cons, List.cons.injEq] at h
        obtain ⟨hsame, hrelate⟩ := hbeside z (by simp) x (by simp) y (by simp) h.1
        rw [relateItems, relateItems, hsame, hrelate, ih h.2 fun z' hz x' hx y' hy =>
          hbeside z' (by simp [hz]) x' (by simp [hx]) y' (by simp [hy])]

theorem relate_congr (r : Relation) (z : Value) :
    ∀ {x y : Value}, x.erase = y.erase → z.Apart x → z.Apart y → relate r z x = relate r z y := by
  induction z using induction_on_parts with
  | step z ih =>
    intro x y h hx hy
    have hparts : ∀ z' ∈ z.parts, ∀ x' ∈ x.parts, ∀ y' ∈ y.parts, x'.erase = y'.erase →
        same z' x' = same z' y' ∧ relate r z' x' = relate r z' y' := by
      intro z' hz' x' hx' y' hy' heq
      have hapart := hx.parts hz' hx'
      have hapart' := hy.parts hz' hy'
      exact ⟨(same_congr z' heq hapart hapart').1, ih z' hz' heq hapart hapart'⟩
    cases alike_of_erase h with
    | refl => rfl
    | nan a b => exact relate_nan r z a b
    | callable ident name name' => cases z <;> rfl
    | @list xs ys hitems =>
      cases z with
      | list zs => exact relateItems_congr hitems hparts
      | _ => rfl
    | @tuple xs ys hitems =>
      cases z with
      | tuple zs => exact relateItems_congr hitems hparts
      | _ => rfl
    | @set xs ys hitems =>
      cases z with
      | set zs =>
        have hlength : xs.length = ys.length := by
          simpa using congrArg List.length hitems
        obtain ⟨hleft, hright⟩ := @subset_congr zs xs ys hitems fun z' hz' x' hx' y' hy' heq =>
          same_congr z' heq (hx.parts hz' hx') (hy.parts hz' hy')
        rw [relate, relate]
        cases r <;> simp only [relateSets, hlength, hleft, hright]
      | _ => rfl
    | record hfields => cases z <;> rfl

theorem unhashable?_congr (x : Value) :
    ∀ {y : Value}, x.erase = y.erase → x.unhashable?.isSome = y.unhashable?.isSome := by
  induction x using induction_on_parts with
  | step x ih =>
    intro y h
    cases alike_of_erase h with
    | @tuple xs ys hitems =>
      replace ih : ∀ x ∈ xs, ∀ {y : Value}, x.erase = y.erase →
        x.unhashable?.isSome = y.unhashable?.isSome := ih
      change (unhashable?.go xs).isSome = (unhashable?.go ys).isSome
      clear h
      induction xs generalizing ys with
      | nil =>
        cases ys with
        | nil => rfl
        | cons y ys => simp at hitems
      | cons x xs ihs =>
        cases ys with
        | nil => simp at hitems
        | cons y ys =>
          rw [List.map_cons, List.map_cons, List.cons.injEq] at hitems
          rw [unhashable?.go, unhashable?.go, Option.isSome_or, Option.isSome_or,
            ih x (by simp) hitems.1, ihs hitems.2 fun x' hx' => ih x' (by simp [hx'])]
    | _ => rfl

end Value

namespace Operator

open Value

variable {z x y : Value} (h : x.erase = y.erase) (hx : z.Apart x) (hy : z.Apart y)

include h

theorem inSet_congr_left {zs : List Value} (hx : ∀ z ∈ zs, z.Apart x) (hy : ∀ z ∈ zs, z.Apart y) :
    (inSet x zs).toOption.getD false = (inSet y zs).toOption.getD false := by
  have hin := isIn_congr_left h hx hy
  have hhash := unhashable?_congr x h
  have hother : ∀ x : Value, (∀ items, x ≠ .set items) → (inSet x zs).toOption.getD false
      = if x.unhashable?.isSome then false else x.isIn zs := by
    intro x hne
    unfold inSet
    split
    . next items => exact absurd rfl (hne items)
    . cases x.unhashable? <;> rfl
  cases alike_of_erase h with
  | refl => rfl
  | set hitems => exact hin
  | nan | callable | list | tuple | record =>
    rw [hother _ (by simp), hother _ (by simp), hhash, hin]

include hx hy

theorem holds_congr : holds z x = holds z y := by
  cases z with
  | list zs =>
    exact isIn_congr_left h (fun z' hz' => hx.parts_left hz') fun z' hz' => hy.parts_left hz'
  | tuple zs =>
    exact isIn_congr_left h (fun z' hz' => hx.parts_left hz') fun z' hz' => hy.parts_left hz'
  | set zs =>
    exact inSet_congr_left h (fun z' hz' => hx.parts_left hz') fun z' hz' => hy.parts_left hz'
  | _ => cases alike_of_erase h <;> rfl

theorem membership_congr : membership z x = membership z y := by
  have hitems : ∀ xs ys : List Value, (∀ x' ∈ xs, x' ∈ x.parts) → (∀ y' ∈ ys, y' ∈ y.parts) →
      xs.map erase = ys.map erase → z.isIn xs = z.isIn ys := fun xs ys hxs hys hmap =>
    isIn_congr hmap (fun x' hx' => hx.parts_right (hxs x' hx'))
      fun y' hy' => hy.parts_right (hys y' hy')
  cases alike_of_erase h with
  | refl => rfl
  | @list xs ys hmap =>
    rw [membership, membership, hitems xs ys (fun _ hm => hm) (fun _ hm => hm) hmap]
  | @tuple xs ys hmap =>
    rw [membership, membership, hitems xs ys (fun _ hm => hm) (fun _ hm => hm) hmap]
  | @set xs ys hmap =>
    have hin := hitems xs ys (fun _ hm => hm) (fun _ hm => hm) hmap
    have hset : inSet z xs = inSet z ys := by
      unfold inSet
      split
      . rw [hin]
      . rw [hin]
    rw [membership, membership, hset]
  | nan | callable | record => rfl

theorem ordered_congr (r : Relation) : ordered r z x = ordered r z y := by
  unfold ordered
  split
  . rfl
  . rw [relate_congr r z h hx hy]

theorem apply_congr (op : Operator) : op.apply z x = op.apply z y := by
  have heq : z.eq x = z.eq y := by
    have hsame := (same_congr z h hx hy).1
    cases z with
    | float w =>
      cases w with
      | nan a => rfl
      | _ => exact hsame
    | _ => exact hsame
  cases op with
  | eq | ne => rw [apply, apply, heq]
  | isIn | notIn => rw [apply, apply, membership_congr h hx hy]
  | contains => rw [apply, apply, holds_congr h hx hy]
  | gt | lt | gte | lte => rw [apply, apply, ordered_congr h hx hy]
  | present => rfl

end Operator
end ForwardChaining
