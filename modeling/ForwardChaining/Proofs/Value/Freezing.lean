import ForwardChaining.Proofs.Value.Key
import Mathlib.Data.List.Sort
import Mathlib.Data.List.Zip

/-!
This module contains how far a frozen value stands for the value that was frozen. Values that are the
same are the same when frozen. The converse fails only where a list, a tuple and a record stand in the
same place, because all of these are frozen to tuples.
-/

namespace ForwardChaining

/-! ### Fields in the order of their keys -/

theorem perm_sortByKey (fields : List (String × α)) : (sortByKey fields).Perm fields :=
  List.mergeSort_perm _ _

theorem pairwise_sortByKey (fields : List (String × α)) :
    ((sortByKey fields).map (·.1)).Pairwise (· ≤ ·) := by
  rw [List.pairwise_map]
  have hsorted : (sortByKey fields).Pairwise fun a b => (!decide (b.1 < a.1)) = true := by
    apply List.pairwise_mergeSort
    . intro a b c hab hbc
      simp only [Bool.not_eq_true', decide_eq_false_iff_not, String.not_lt] at hab hbc ⊢
      exact String.le_trans hab hbc
    . intro a b
      simp only [Bool.or_eq_true, Bool.not_eq_true', decide_eq_false_iff_not, String.not_lt]
      exact String.le_total a.1 b.1
  refine hsorted.imp fun hab => ?_
  simpa only [Bool.not_eq_true', decide_eq_false_iff_not, String.not_lt] using hab

theorem keys_sortByKey {xs : List (String × α)} {ys : List (String × β)}
    (h : (xs.map (·.1)).Perm (ys.map (·.1))) :
    (sortByKey xs).map (·.1) = (sortByKey ys).map (·.1) := by
  have hperm : ((sortByKey xs).map (·.1)).Perm ((sortByKey ys).map (·.1)) :=
    ((perm_sortByKey xs).map _).trans (h.trans ((perm_sortByKey ys).map _).symm)
  exact hperm.eq_of_pairwise (fun _ _ _ _ => String.le_antisymm) (pairwise_sortByKey xs)
    (pairwise_sortByKey ys)

/--
Sorted fields meet one by one if and only if there are as many and each is met by the one that is found
under its key.
-/
theorem forall₂_sortByKey {r : α → β → Prop} {xs : List (String × α)} {ys : List (String × β)}
    (hxs : (xs.map (·.1)).Nodup) (hys : (ys.map (·.1)).Nodup) :
    List.Forall₂ (fun x y => x.1 = y.1 ∧ r x.2 y.2) (sortByKey xs) (sortByKey ys)
      ↔ xs.length = ys.length
        ∧ ∀ field ∈ xs, ∃ y, ys.lookup field.1 = some y ∧ r field.2 y := by
  have hlenx := (perm_sortByKey xs).length_eq
  have hleny := (perm_sortByKey ys).length_eq
  have hlens : (sortByKey xs).length = (sortByKey ys).length ↔ xs.length = ys.length := by
    rw [hlenx, hleny]
  rw [List.forall₂_iff_get, hlens]
  simp only [List.get_eq_getElem]
  refine and_congr_right fun hlen => ⟨fun h field hfield => ?_, fun h i hi hj => ?_⟩
  . obtain ⟨i, hi, rfl⟩ := List.mem_iff_getElem.mp ((perm_sortByKey xs).mem_iff.mpr hfield)
    have hj : i < (sortByKey ys).length := by omega
    obtain ⟨hkey, hr⟩ := h i hi hj
    refine ⟨(sortByKey ys)[i].2, (lookup_eq_some_iff_mem hys _ _).mpr ?_, hr⟩
    rw [hkey]
    exact (perm_sortByKey ys).mem_iff.mp (List.getElem_mem hj)
  . have hsub : xs.map (·.1) ⊆ ys.map (·.1) := by
      intro key hkey
      obtain ⟨field, hfield, rfl⟩ := List.mem_map.mp hkey
      obtain ⟨y, hy, -⟩ := h field hfield
      exact List.mem_map.mpr ⟨_, (lookup_eq_some_iff_mem hys _ _).mp hy, rfl⟩
    -- each key of the one is a key of the other, and there are as many, so that both have the same
    have hkeys := keys_sortByKey ((List.subperm_of_subset hxs hsub).perm_of_length_le (by simp [hlen]))
    have hkey : (sortByKey xs)[i].1 = (sortByKey ys)[i].1 := by
      have hi' : i < ((sortByKey xs).map (·.1)).length := by rwa [List.length_map]
      simpa only [List.getElem_map] using List.getElem_of_eq hkeys hi'
    obtain ⟨y, hy, hr⟩ := h (sortByKey xs)[i] ((perm_sortByKey xs).mem_iff.mp (List.getElem_mem hi))
    have hmem : ((sortByKey xs)[i].1, (sortByKey ys)[i].2) ∈ ys := by
      rw [hkey]
      exact (perm_sortByKey ys).mem_iff.mp (List.getElem_mem hj)
    rw [(lookup_eq_some_iff_mem hys _ _).mpr hmem, Option.some.injEq] at hy
    exact ⟨hkey, hy ▸ hr⟩

namespace Value

theorem frozenItems_eq_map (items : List Value) : frozenItems items = items.map frozen := by
  induction items with
  | nil => rfl
  | cons x xs ih => rw [frozenItems, ih, List.map_cons]

theorem frozenFields_eq_map (fields : List (String × Value)) :
    frozenFields fields = fields.map fun (k, x) => (k, x.frozen) := by
  induction fields with
  | nil => rfl
  | cons field fields ih => rw [frozenFields, ih, List.map_cons]

theorem lookup_frozenFields (fields : List (String × Value)) (key : String) :
    (frozenFields fields).lookup key = (fields.lookup key).map frozen := by
  induction fields with
  | nil => rfl
  | cons field fields ih =>
    rw [frozenFields, List.lookup_cons, List.lookup_cons]
    split <;> simp [ih]

/-! ### Values that can be keys -/

theorem distinct_eq_self {items : List Value} (h : ∀ x ∈ items, Frozen x)
    (apart : items.Pairwise fun x y => same x y = false) : distinct items = items := by
  -- nothing that has been `seen` is the same as what is still to come
  have hfold : ∀ items seen : List Value, (∀ x ∈ seen ++ items, Frozen x) →
      ((seen ++ items).Pairwise fun x y => same x y = false) →
        items.foldl (fun seen x => if isIn x seen then seen else seen ++ [x]) seen = seen ++ items := by
    intro items
    induction items with
    | nil => simp
    | cons x items ih =>
      intro seen hfrozen apart
      have hnew : isIn x seen = false := by
        rw [isIn, List.any_eq_false]
        intro y hy hxy
        have hyx := (hfrozen x (by simp)).same_symm y (hfrozen y (by simp [hy])) hxy
        have hapart := (List.pairwise_append.mp apart).2.2 y hy x (by simp)
        exact Bool.noConfusion (hapart.symm.trans hyx)
      rw [List.foldl_cons, if_neg (by simp [hnew]),
        ih (seen ++ [x]) (by simpa using hfrozen) (by simpa using apart)]
      simp
  exact hfold items [] h apart

theorem Frozen.same_frozen {x : Value} (hx : Frozen x) : same x x.frozen = true := by
  induction hx with
  | null | bool | int | float | text | callable => exact Frozen.same_refl (by constructor)
  | tuple _ ih =>
    rw [frozen, same, sameItems_iff, frozenItems_eq_map, List.forall₂_map_right_iff,
      List.forall₂_same]
    exact ih
  | @set items h apart ih =>
    have hfrozen := frozen_frozenItems items
    rw [frozenItems_eq_map] at hfrozen
    have hdistinct : distinct (items.map frozen) = items.map frozen := by
      refine distinct_eq_self hfrozen (List.pairwise_map.mpr (apart.imp_of_mem ?_))
      intro x y hx hy hxy
      rw [Bool.eq_false_iff] at hxy ⊢
      intro hsame
      have hyx := (h y hy).same_symm _ (frozen_frozen y) (ih y hy)
      exact hxy (same_trans _ _ _ (same_trans _ _ _ (ih x hx) hsame) hyx)
    rw [frozen, frozenItems_eq_map, hdistinct, same, List.length_map, beq_self_eq_true, Bool.true_and,
      subset_iff]
    exact fun x hx => ⟨x.frozen, List.mem_map_of_mem hx, ih x hx⟩

theorem Frozen.same_iff {x y : Value} (hx : Frozen x) (hy : Frozen y) :
    same x y = true ↔ same x.frozen y.frozen = true := by
  have hback : ∀ {z : Value}, Frozen z → same z.frozen z = true :=
    fun hz => hz.same_symm _ (frozen_frozen _) hz.same_frozen
  constructor
  . exact fun h => same_trans _ _ _ (same_trans _ _ _ (hback hx) h) hy.same_frozen
  . exact fun h => same_trans _ _ _ (same_trans _ _ _ hx.same_frozen h) (hback hy)

/-! ### All values -/

/-- A value that can exist: sets hold values that can be keys, each once, and records have each key once. -/
inductive Proper : Value → Prop where
  | null : Proper .null
  | bool (b : Bool) : Proper (.bool b)
  | int (n : Int) : Proper (.int n)
  | float (x : Binary64) : Proper (.float x)
  | text (s : String) : Proper (.text s)
  | callable (ident : Nat) (name : String) : Proper (.callable ident name)
  | list {items : List Value} (h : ∀ x ∈ items, Proper x) : Proper (.list items)
  | tuple {items : List Value} (h : ∀ x ∈ items, Proper x) : Proper (.tuple items)
  | set {items : List Value} (h : ∀ x ∈ items, Frozen x)
    (apart : items.Pairwise fun x y => same x y = false) : Proper (.set items)
  | record {fields : List (String × Value)} (h : ∀ field ∈ fields, Proper field.2)
    (keys : (fields.map (·.1)).Nodup) : Proper (.record fields)

/-- The kinds of containers that are frozen to tuples. -/
inductive SequenceKind where
  | list
  | tuple
  | record
deriving DecidableEq

def sequenceKind? : Value → Option SequenceKind
  | .list _ => some .list
  | .tuple _ => some .tuple
  | .record _ => some .record
  | _ => none

/-- Containers of different kinds, but which are frozen to tuples alike, stand in the same place of two values. -/
inductive Clash : Value → Value → Prop where
  | kinds {x y : Value} {k l : SequenceKind} (hx : x.sequenceKind? = some k)
    (hy : y.sequenceKind? = some l) (hne : k ≠ l) : Clash x y
  | list {xs ys : List Value} {x y : Value} (hmem : (x, y) ∈ xs.zip ys) (h : Clash x y) :
    Clash (.list xs) (.list ys)
  | tuple {xs ys : List Value} {x y : Value} (hmem : (x, y) ∈ xs.zip ys) (h : Clash x y) :
    Clash (.tuple xs) (.tuple ys)
  | record {xs ys : List (String × Value)} {key : String} {x y : Value}
    (hx : xs.lookup key = some x) (hy : ys.lookup key = some y) (h : Clash x y) :
    Clash (.record xs) (.record ys)

theorem Clash.sequence {x y : Value} (h : Clash x y) : x.sequenceKind?.isSome := by
  cases h with
  | kinds hx => rw [hx]; rfl
  | list | tuple | record => rfl

theorem clash_list_iff {xs ys : List Value} :
    Clash (.list xs) (.list ys) ↔ ∃ p ∈ xs.zip ys, Clash p.1 p.2 := by
  constructor
  . rintro (⟨⟨⟩, ⟨⟩, hne⟩ | ⟨hmem, h⟩)
    . exact absurd rfl hne
    . exact ⟨_, hmem, h⟩
  . rintro ⟨p, hmem, h⟩
    exact .list hmem h

theorem clash_tuple_iff {xs ys : List Value} :
    Clash (.tuple xs) (.tuple ys) ↔ ∃ p ∈ xs.zip ys, Clash p.1 p.2 := by
  constructor
  . rintro (⟨⟨⟩, ⟨⟩, hne⟩ | _ | ⟨hmem, h⟩)
    . exact absurd rfl hne
    . exact ⟨_, hmem, h⟩
  . rintro ⟨p, hmem, h⟩
    exact .tuple hmem h

theorem clash_record_iff {xs ys : List (String × Value)} :
    Clash (.record xs) (.record ys)
      ↔ ∃ key x y, xs.lookup key = some x ∧ ys.lookup key = some y ∧ Clash x y := by
  constructor
  . rintro (⟨⟨⟩, ⟨⟩, hne⟩ | _ | _ | ⟨hx, hy, h⟩)
    . exact absurd rfl hne
    . exact ⟨_, _, _, hx, hy, h⟩
  . rintro ⟨key, x, y, hx, hy, h⟩
    exact .record hx hy h

/-- The values are the same if and only if they are when frozen and no kinds of containers clash. -/
def Discerned (x y : Value) : Prop :=
  same x y = true ↔ same x.frozen y.frozen = true ∧ ¬ Clash x y

theorem sameItems_iff_frozen {xs ys : List Value} (h : ∀ x ∈ xs, ∀ y ∈ ys, Discerned x y) :
    sameItems xs ys = true ↔ sameItems (frozenItems xs) (frozenItems ys) = true
      ∧ ¬ ∃ p ∈ xs.zip ys, Clash p.1 p.2 := by
  induction xs generalizing ys with
  | nil => cases ys <;> simp [sameItems, frozenItems]
  | cons x xs ih =>
    cases ys with
    | nil => simp [sameItems, frozenItems]
    | cons y ys =>
      have hfirst : same x y = true ↔ same x.frozen y.frozen = true ∧ ¬ Clash x y :=
        h x (by simp) y (by simp)
      have hrest := @ih ys fun a ha b hb => h a (by simp [ha]) b (by simp [hb])
      rw [sameItems, frozenItems, frozenItems, sameItems, Bool.and_eq_true, Bool.and_eq_true, hrest,
        hfirst]
      simp only [List.zip_cons_cons, List.mem_cons, exists_eq_or_imp, not_or]
      tauto

theorem same_frozen_record {xs ys : List (String × Value)} (hxs : (xs.map (·.1)).Nodup)
    (hys : (ys.map (·.1)).Nodup) :
    same (frozen (.record xs)) (frozen (.record ys)) = true ↔ xs.length = ys.length
      ∧ ∀ field ∈ xs, ∃ y, ys.lookup field.1 = some y ∧ same field.2.frozen y.frozen = true := by
  have hkeys : ∀ fields : List (String × Value), (frozenFields fields).map (·.1) = fields.map (·.1) := by
    intro fields
    rw [frozenFields_eq_map, List.map_map]
    rfl
  have hpair : ∀ p q : String × Value,
      same (.tuple [.text p.1, p.2]) (.tuple [.text q.1, q.2]) = true
        ↔ p.1 = q.1 ∧ same p.2 q.2 = true := by
    simp [same, sameItems]
  rw [frozen, frozen, same, sameItems_iff, List.forall₂_map_left_iff, List.forall₂_map_right_iff]
  simp only [hpair]
  rw [forall₂_sortByKey (r := fun x y => same x y = true) (hkeys xs ▸ hxs) (hkeys ys ▸ hys)]
  simp only [lookup_frozenFields, Option.map_eq_some_iff, exists_exists_and_eq_and]
  simp only [frozenFields_eq_map, List.length_map, List.forall_mem_map]

theorem discerned_record {xs ys : List (String × Value)} (hxs : (xs.map (·.1)).Nodup)
    (hys : (ys.map (·.1)).Nodup) (h : ∀ field ∈ xs, ∀ y, ys.lookup field.1 = some y → Discerned field.2 y) :
    Discerned (.record xs) (.record ys) := by
  rw [Discerned, same_frozen_record hxs hys, same, Bool.and_eq_true, beq_iff_eq, sameFields_iff,
    clash_record_iff, and_assoc]
  refine and_congr_right fun _ => ⟨fun hsame => ⟨?_, ?_⟩, ?_⟩
  . intro field hfield
    obtain ⟨y, hy, hxy⟩ := hsame field hfield
    exact ⟨y, hy, ((h field hfield y hy).mp hxy).1⟩
  . rintro ⟨key, x, y, hx, hy, hclash⟩
    have hfield := (lookup_eq_some_iff_mem hxs key x).mp hx
    obtain ⟨y', hy', hxy⟩ := hsame (key, x) hfield
    obtain rfl : y = y' := Option.some.inj (hy.symm.trans hy')
    exact ((h (key, x) hfield y hy).mp hxy).2 hclash
  . rintro ⟨hfrozen, hclash⟩ field hfield
    obtain ⟨y, hy, hxy⟩ := hfrozen field hfield
    have hx : xs.lookup field.1 = some field.2 := (lookup_eq_some_iff_mem hxs _ _).mpr hfield
    exact ⟨y, hy, (h field hfield y hy).mpr ⟨hxy, fun hc => hclash ⟨_, _, _, hx, hy, hc⟩⟩⟩

theorem discerned_of_frozen_eq {x : Value} (hx : x.frozen = x) (hset : ¬ ∃ items, x = .set items)
    (hplain : x.sequenceKind? = none) (y : Value) : Discerned x y := by
  have hclash : ¬ Clash x y := by
    intro h
    have := h.sequence
    simp [hplain] at this
  rw [Discerned, hx, and_iff_left hclash]
  cases x with
  | list | tuple | record => simp [sequenceKind?] at hplain
  | set items => exact absurd ⟨items, rfl⟩ hset
  | _ => cases y <;> rfl

theorem discerned_of_kinds {x y : Value} {k l : SequenceKind} (hx : x.sequenceKind? = some k)
    (hy : y.sequenceKind? = some l) (hne : k ≠ l) : Discerned x y := by
  refine iff_of_false ?_ fun h => h.2 (.kinds hx hy hne)
  cases x <;> cases y <;> simp_all [sequenceKind?, same]

/-- Values are the same if and only if they are when frozen and no containers of different kinds clash. -/
theorem Proper.discerned {x y : Value} (hx : x.Proper) (hy : y.Proper) : Discerned x y := by
  induction hx generalizing y with
  | null | bool | int | float | text | callable => exact discerned_of_frozen_eq rfl (by simp) rfl y
  | @list xs hxs ih =>
    cases hy with
    | @list ys hys =>
      rw [Discerned, frozen, frozen, same, same, clash_list_iff]
      exact sameItems_iff_frozen fun x hx y hy => ih x hx (hys y hy)
    | tuple | record => exact discerned_of_kinds rfl rfl (by simp)
    | _ => exact iff_of_false Bool.noConfusion fun h => Bool.noConfusion h.1
  | @tuple xs hxs ih =>
    cases hy with
    | @tuple ys hys =>
      rw [Discerned, frozen, frozen, same, same, clash_tuple_iff]
      exact sameItems_iff_frozen fun x hx y hy => ih x hx (hys y hy)
    | list | record => exact discerned_of_kinds rfl rfl (by simp)
    | _ => exact iff_of_false Bool.noConfusion fun h => Bool.noConfusion h.1
  | @set xs hxs apart =>
    cases hy with
    | @set ys hys apart' =>
      -- what a set holds can be a key, and has no list and no record in it
      have hclash : ¬ Clash (.set xs) (.set ys) := fun h => Bool.noConfusion h.sequence
      rw [Discerned, and_iff_left hclash]
      exact Frozen.same_iff (.set hxs apart) (.set hys apart')
    | _ => exact iff_of_false Bool.noConfusion fun h => Bool.noConfusion h.1
  | @record xs hxs hkeys ih =>
    cases hy with
    | @record ys hys hkeys' =>
      refine discerned_record hkeys hkeys' fun field hfield y hlookup => ih field hfield ?_
      exact hys _ ((lookup_eq_some_iff_mem hkeys' _ _).mp hlookup)
    | list | tuple => exact discerned_of_kinds rfl rfl (by simp)
    | _ => exact iff_of_false Bool.noConfusion fun h => Bool.noConfusion h.1

theorem Clash.symm {x y : Value} (h : Clash x y) : Clash y x := by
  have hswap : ∀ {x y : Value} {xs ys : List Value}, (x, y) ∈ xs.zip ys → (y, x) ∈ ys.zip xs := by
    intro x y xs ys hmem
    rw [← List.zip_swap]
    exact List.mem_map.mpr ⟨(x, y), hmem, rfl⟩
  induction h with
  | kinds hx hy hne => exact .kinds hy hx hne.symm
  | list hmem _ ih => exact .list (hswap hmem) ih
  | tuple hmem _ ih => exact .tuple (hswap hmem) ih
  | record hx hy _ ih => exact .record hy hx ih

theorem Proper.same_symm {x y : Value} (hx : x.Proper) (hy : y.Proper) (h : same x y = true) :
    same y x = true := by
  obtain ⟨hfrozen, hclash⟩ := (hx.discerned hy).mp h
  exact (hy.discerned hx).mpr ⟨(frozen_frozen x).same_symm _ (frozen_frozen y) hfrozen,
    fun hback => hclash hback.symm⟩

theorem Proper.same_comm {x y : Value} (hx : x.Proper) (hy : y.Proper) : same x y = same y x :=
  Bool.eq_iff_iff.mpr ⟨hx.same_symm hy, hy.same_symm hx⟩

theorem Proper.same_refl {x : Value} (hx : x.Proper) : same x x = true := by
  induction hx with
  | null => exact Frozen.null.same_refl
  | bool b => exact (Frozen.bool b).same_refl
  | int n => exact (Frozen.int n).same_refl
  | float z => exact (Frozen.float z).same_refl
  | text s => exact (Frozen.text s).same_refl
  | callable ident name => exact (Frozen.callable ident name).same_refl
  | list _ ih | tuple _ ih =>
    rw [same, sameItems_iff, List.forall₂_same]
    exact ih
  | set h apart => exact (Frozen.set h apart).same_refl
  | record _ keys ih =>
    rw [same, beq_self_eq_true, Bool.true_and, sameFields_iff]
    exact fun field hfield => ⟨field.2, (lookup_eq_some_iff_mem keys _ _).mpr hfield, ih field hfield⟩

end Value
end ForwardChaining
