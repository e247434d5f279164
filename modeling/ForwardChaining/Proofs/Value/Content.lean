import ForwardChaining.Proofs.Json.Reading
import ForwardChaining.Proofs.Rule.Digest

/-!
This module contains what the canonical text of a value tells. It tells the value, up to the order of
keys, but for three things: whether a sequence is a list or a tuple, whether a text is that of a set, and
which NaN a NaN is.
-/

namespace ForwardChaining

open Json

namespace Value

mutual

/-- The value as its canonical text tells it. -/
def blurred : Value → Value
  | .float x => .float x.erase
  | .list items => .list (blurredItems items)
  | .tuple items => .list (blurredItems items)
  | .set items => .text (Value.set items).literal
  | .record fields => .record (blurredFields fields)
  | x => x
termination_by structural x => x

/-- The items as their canonical texts tell them. -/
def blurredItems : List Value → List Value
  | [] => []
  | x :: xs => blurred x :: blurredItems xs
termination_by structural x => x

/-- The fields with their values as the canonical texts tell them. -/
def blurredFields : List (String × Value) → List (String × Value)
  | [] => []
  | (k, x) :: xs => (k, blurred x) :: blurredFields xs
termination_by structural x => x

end

theorem blurredItems_eq_map (items : List Value) : blurredItems items = items.map blurred := by
  induction items with
  | nil => rfl
  | cons x xs ih => rw [blurredItems, ih, List.map_cons]

theorem blurredFields_eq_map (fields : List (String × Value)) :
    blurredFields fields = fields.map fun field => (field.1, field.2.blurred) := by
  induction fields with
  | nil => rfl
  | cons field fields ih => rw [blurredFields, ih, List.map_cons]

theorem blurred_record (fields : List (String × Value)) :
    blurred (.record fields) = .record (fields.map fun field => (field.1, field.2.blurred)) :=
  congrArg record (blurredFields_eq_map fields)

/-- No callable stands in the value, and no record in it has a key twice. -/
inductive Written : Value → Prop where
  | null : Written .null
  | bool (b : Bool) : Written (.bool b)
  | int (n : Int) : Written (.int n)
  | float (x : Binary64) : Written (.float x)
  | text (s : String) : Written (.text s)
  | list {items : List Value} (h : ∀ x ∈ items, Written x) : Written (.list items)
  | tuple {items : List Value} (h : ∀ x ∈ items, Written x) : Written (.tuple items)
  | set {items : List Value} (h : ∀ x ∈ items, Written x) : Written (.set items)
  | record {fields : List (String × Value)} (keys : (fields.map (·.1)).Nodup)
    (h : ∀ field ∈ fields, Written field.2) : Written (.record fields)

/-- The canonical text tells the value: no callable, tuple, set or NaN but one stands in it. -/
inductive Told : Value → Prop where
  | null : Told .null
  | bool (b : Bool) : Told (.bool b)
  | int (n : Int) : Told (.int n)
  | float {x : Binary64} (h : x.erase = x) : Told (.float x)
  | text (s : String) : Told (.text s)
  | list {items : List Value} (h : ∀ x ∈ items, Told x) : Told (.list items)
  | record {fields : List (String × Value)} (keys : (fields.map (·.1)).Nodup)
    (h : ∀ field ∈ fields, Told field.2) : Told (.record fields)

theorem Written.told_blurred {x : Value} (h : x.Written) : x.blurred.Told := by
  have hitems : ∀ {items : List Value}, (∀ x ∈ items, x.blurred.Told) →
      (Value.list (blurredItems items)).Told := by
    intro items hitems
    rw [blurredItems_eq_map]
    exact .list (List.forall_mem_map.mpr hitems)
  induction h with
  | null => exact .null
  | bool b => exact .bool b
  | int n => exact .int n
  | float z => exact .float z.erase_erase
  | text s => exact .text s
  | list h ih => exact hitems ih
  | tuple h ih => exact hitems ih
  | set h ih => exact .text _
  | record keys h ih =>
    rw [blurred_record]
    refine .record ?_ (List.forall_mem_map.mpr ih)
    rwa [List.map_map]

theorem sameText_blurred (x : Value) : SameText x.canonical x.blurred.canonical := by
  have hitems : ∀ {items : List Value}, (∀ x ∈ items, SameText x.canonical x.blurred.canonical) →
      SameText (.array (canonicalItems items)) (.array (canonicalItems (blurredItems items))) := by
    intro items hitems
    rw [canonicalItems_eq_map, canonicalItems_eq_map, blurredItems_eq_map, List.map_map,
      SameText.array_map_iff]
    exact List.forall₂_same.mpr hitems
  induction x using induction_on_parts with
  | step x ih =>
    match x with
    | .null | .bool _ | .int _ | .text _ | .callable .. | .set _ => exact .refl _
    | .float z => exact SameText.float_iff.mpr z.erase_erase.symm
    | .list items => exact hitems ih
    | .tuple items => exact hitems ih
    | .record fields =>
      rw [blurred_record, canonical_record, canonical_record, List.map_map]
      apply SameText.object
      rw [List.forall₂_map_left_iff, List.forall₂_map_right_iff]
      exact List.forall₂_same.mpr fun field hfield =>
        ⟨rfl, ih field.2 (List.mem_map.mpr ⟨field, hfield, rfl⟩)⟩

theorem reorderedItems_of_forall₂ {xs ys : List Value} (h : List.Forall₂ Reordered xs ys) :
    ReorderedItems xs ys := by
  induction h with
  | nil => exact .nil
  | cons h _ ih => exact .cons h ih

theorem reorderedFields_of_forall₂ {xs ys : List (String × Value)}
    (h : List.Forall₂ (fun x y => x.1 = y.1 ∧ Reordered x.2 y.2) xs ys) : ReorderedFields xs ys := by
  induction h with
  | nil => exact .nil
  | @cons x y _ _ h _ ih =>
    obtain ⟨key, x⟩ := x
    obtain ⟨key', y⟩ := y
    obtain ⟨rfl, h⟩ := h
    exact .cons key h ih

theorem Told.reordered_of_sameText {x y : Value} (hx : x.Told) (hy : y.Told)
    (h : SameText x.canonical y.canonical) : x.Reordered y := by
  -- on the first value; its text begins like those of few kinds, and only one of them is told
  induction hx generalizing y with
  | null =>
    have hkind : y.canonical = .null := h.shape
    cases hy with
    | null => exact .same _
    | _ => cases hkind
  | bool b =>
    have hkind : ∃ c, y.canonical = .bool c := by
      have hshape := h.shape
      cases b
      . exact ⟨false, hshape⟩
      . exact ⟨true, hshape⟩
    obtain ⟨c, hkind⟩ := hkind
    cases hy with
    | bool b' =>
      rw [SameText.bool_iff.mp h]
      exact .same _
    | _ => cases hkind
  | int n =>
    have hkind : (∃ m, y.canonical = .int m) ∨ ∃ z, y.canonical = .float z := h.shape
    cases hy with
    | int m =>
      rw [SameText.int_iff.mp h]
      exact .same _
    | float => exact absurd h (ofInt_ne_floatText n _)
    | _ => rcases hkind with ⟨_, hkind⟩ | ⟨_, hkind⟩ <;> cases hkind
  | @float z hz =>
    have hkind : (∃ m, y.canonical = .int m) ∨ ∃ z, y.canonical = .float z := h.shape
    cases hy with
    | int m => exact absurd h.symm (ofInt_ne_floatText m z)
    | @float z' hz' =>
      rw [← hz, ← hz', SameText.float_iff.mp h]
      exact .same _
    | _ => rcases hkind with ⟨_, hkind⟩ | ⟨_, hkind⟩ <;> cases hkind
  | text s =>
    obtain ⟨t, hkind⟩ : ∃ t, y.canonical = .text t := h.shape
    cases hy with
    | text t' =>
      rw [SameText.text_iff.mp h]
      exact .same _
    | _ => cases hkind
  | list hxs ih =>
    obtain ⟨items, hkind⟩ : ∃ items, y.canonical = .array items := h.shape
    cases hy with
    | list hys =>
      rw [canonical_list, canonical_list] at h
      exact .list (reorderedItems_of_forall₂
        (h.forall₂_of_array fun x hx y hy hxy => ih x hx (hys y hy) hxy))
    | _ => cases hkind
  | @record xs keys hxs ih =>
    obtain ⟨fields, hkind⟩ : ∃ fields, y.canonical = .object fields := h.shape
    cases hy with
    | @record ys _ hys =>
      rw [canonical_record, canonical_record] at h
      obtain ⟨-, zs, hperm, hmeet⟩ : Rearranged Reordered xs ys :=
        h.rearranged_of_object keys fun x hx y hy hxy => ih x hx (hys y hy) hxy
      exact .record keys hperm (reorderedFields_of_forall₂ hmeet)
    | _ => cases hkind

end Value
end ForwardChaining
