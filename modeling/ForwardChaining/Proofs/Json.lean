import ForwardChaining.Json
import ForwardChaining.Proofs.Value.Freezing

/-!
This module contains when two documents have the same text in the style of digests. There the fields of
an object may stand in any order.
-/

namespace ForwardChaining

/-- Fields of distinct keys, of which the one list has the order changed, and values by some relation. -/
def Rearranged (r : α → β → Prop) (xs : List (String × α)) (ys : List (String × β)) : Prop :=
  (xs.map (·.1)).Nodup ∧ ∃ zs, xs.Perm zs ∧ List.Forall₂ (fun z y => z.1 = y.1 ∧ r z.2 y.2) zs ys

theorem Rearranged.nil {r : α → β → Prop} : Rearranged r [] [] :=
  ⟨.nil, [], .refl _, .nil⟩

theorem Rearranged.of_perm {xs ys : List (String × α)} (hkeys : (xs.map (·.1)).Nodup)
    (h : xs.Perm ys) : Rearranged Eq xs ys :=
  ⟨hkeys, ys, h, List.forall₂_same.mpr fun _ _ => ⟨rfl, rfl⟩⟩

theorem Rearranged.map {r : α → β → Prop} {r' : γ → δ → Prop} {f : α → γ} {g : β → δ}
    (hr : ∀ a b, r a b → r' (f a) (g b)) {xs : List (String × α)} {ys : List (String × β)}
    (h : Rearranged r xs ys) :
    Rearranged r' (xs.map fun x => (x.1, f x.2)) (ys.map fun y => (y.1, g y.2)) := by
  obtain ⟨hkeys, zs, hperm, hmeet⟩ := h
  refine ⟨?_, _, hperm.map _, ?_⟩
  . rwa [List.map_map]
  . rw [List.forall₂_map_left_iff, List.forall₂_map_right_iff]
    exact hmeet.imp fun _ _ hz => ⟨hz.1, hr _ _ hz.2⟩

theorem sortByKey_eq_of_perm {xs ys : List (String × α)} (hkeys : (xs.map (·.1)).Nodup)
    (h : xs.Perm ys) : sortByKey xs = sortByKey ys := by
  have hperm : (sortByKey xs).Perm (sortByKey ys) :=
    (perm_sortByKey xs).trans (h.trans (perm_sortByKey ys).symm)
  apply hperm.eq_of_pairwise _ (List.pairwise_map.mp (pairwise_sortByKey xs))
    (List.pairwise_map.mp (pairwise_sortByKey ys))
  intro a b ha hb hab hba
  have hmem := (perm_sortByKey xs).mem_iff.mp ha
  have hmem' := h.mem_iff.mpr ((perm_sortByKey ys).mem_iff.mp hb)
  exact List.inj_on_of_nodup_map hkeys hmem hmem' (String.le_antisymm hab hba)

theorem sortByKey_map (f : α → β) (fields : List (String × α)) :
    sortByKey (fields.map fun field => (field.1, f field.2))
      = (sortByKey fields).map fun field => (field.1, f field.2) := by
  rw [sortByKey, sortByKey, List.map_mergeSort]
  intro _ _ _ _
  rfl

namespace Json

theorem renderItems_eq_map (style : Style) (items : List Json) :
    renderItems style items = items.map (render style) := by
  induction items with
  | nil => rfl
  | cons x xs ih => rw [renderItems, ih, List.map_cons]

theorem renderFields_eq_map (style : Style) (fields : List (String × Json)) :
    renderFields style fields = fields.map fun field => (field.1, field.2.render style) := by
  induction fields with
  | nil => rfl
  | cons field fields ih => rw [renderFields, ih, List.map_cons]

theorem render_array (style : Style) (items : List Json) : render style (.array items)
    = "[" ++ Text.joinWith style.itemSeparator (items.map (render style)) ++ "]" := by
  rw [← renderItems_eq_map]
  rfl

/-- The documents have the same text in the style of digests. -/
def SameText (x y : Json) : Prop :=
  x.render canonical = y.render canonical

namespace SameText

@[refl, simp]
theorem refl (x : Json) : SameText x x :=
  rfl

theorem array {xs ys : List Json} (h : List.Forall₂ SameText xs ys) :
    SameText (.array xs) (.array ys) := by
  have htexts : xs.map (render canonical) = ys.map (render canonical) := by
    rw [← List.forall₂_eq_eq_eq, List.forall₂_map_left_iff, List.forall₂_map_right_iff]
    exact h
  rw [SameText, render_array, render_array, htexts]

theorem array_map {f : α → Json} {xs ys : List α}
    (h : List.Forall₂ (fun x y => SameText (f x) (f y)) xs ys) :
    SameText (.array (xs.map f)) (.array (ys.map f)) := by
  apply array
  rwa [List.forall₂_map_left_iff, List.forall₂_map_right_iff]

theorem of_fields {xs ys : List (String × Json)}
    (h : sortByKey (renderFields canonical xs) = sortByKey (renderFields canonical ys)) :
    SameText (.object xs) (.object ys) := by
  have hstyle : canonical.sorted = true := rfl
  unfold SameText
  simp only [render, hstyle, if_true, h]

theorem renderFields_eq {xs ys : List (String × Json)}
    (h : List.Forall₂ (fun x y => x.1 = y.1 ∧ SameText x.2 y.2) xs ys) :
    renderFields canonical xs = renderFields canonical ys := by
  rw [renderFields_eq_map, renderFields_eq_map, ← List.forall₂_eq_eq_eq,
    List.forall₂_map_left_iff, List.forall₂_map_right_iff]
  exact h.imp fun _ _ hx => Prod.ext hx.1 hx.2

theorem object {xs ys : List (String × Json)}
    (h : List.Forall₂ (fun x y => x.1 = y.1 ∧ SameText x.2 y.2) xs ys) :
    SameText (.object xs) (.object ys) :=
  of_fields (congrArg sortByKey (renderFields_eq h))

theorem rearranged {xs ys : List (String × Json)} (h : Rearranged SameText xs ys) :
    SameText (.object xs) (.object ys) := by
  obtain ⟨hkeys, zs, hperm, hmeet⟩ := h
  apply of_fields
  rw [← renderFields_eq hmeet, renderFields_eq_map, renderFields_eq_map]
  apply sortByKey_eq_of_perm
  . rwa [List.map_map]
  . exact hperm.map _

end SameText
end Json

namespace Value

theorem canonicalItems_eq_map (items : List Value) : canonicalItems items = items.map canonical := by
  induction items with
  | nil => rfl
  | cons x xs ih => rw [canonicalItems, ih, List.map_cons]

theorem canonicalFields_eq_map (fields : List (String × Value)) :
    canonicalFields fields = fields.map fun field => (field.1, field.2.canonical) := by
  induction fields with
  | nil => rfl
  | cons field fields ih => rw [canonicalFields, ih, List.map_cons]

theorem canonical_list (items : List Value) :
    canonical (.list items) = .array (items.map canonical) :=
  congrArg Json.array (canonicalItems_eq_map items)

theorem canonical_tuple (items : List Value) :
    canonical (.tuple items) = .array (items.map canonical) :=
  congrArg Json.array (canonicalItems_eq_map items)

theorem canonical_record (fields : List (String × Value)) :
    canonical (.record fields) = .object (fields.map fun field => (field.1, field.2.canonical)) :=
  congrArg Json.object (canonicalFields_eq_map fields)

end Value
end ForwardChaining
