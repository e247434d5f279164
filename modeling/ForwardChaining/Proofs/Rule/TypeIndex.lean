import ForwardChaining.Rule.TypeIndex

/-!
This module contains what the type index lists: for every fact type the positions of all conditions
that refer to it, by rules in the order in which they were added and then by ascending positions, and
the rules that have such a condition.
-/

namespace ForwardChaining

/-- The condition filters facts of the type. -/
def Condition.RefersTo (type : String) (condition : Condition) : Prop :=
  ∃ filter ∈ condition.filter?, filter.type = type

instance (type : String) (condition : Condition) : Decidable (condition.RefersTo type) :=
  match h : condition.filter? with
  | none => .isFalse fun ⟨_, hmem, _⟩ => by simp [h] at hmem
  | some filter =>
    if htype : filter.type = type then .isTrue ⟨filter, h, htype⟩
    else .isFalse fun ⟨other, hmem, heq⟩ => by
      rw [h, Option.mem_some] at hmem
      exact htype (hmem ▸ heq)

theorem Condition.refersTo_iff {type : String} {condition : Condition} {filter : FactFilter}
    (h : condition.filter? = some filter) : condition.RefersTo type ↔ type = filter.type := by
  unfold RefersTo
  rw [h]
  constructor
  . rintro ⟨other, hmem, rfl⟩
    rw [Option.mem_some.mp hmem]
  . rintro rfl
    exact ⟨filter, rfl, rfl⟩

theorem Condition.not_refersTo {type : String} {condition : Condition}
    (h : condition.filter? = none) : ¬ condition.RefersTo type := by
  rintro ⟨filter, hmem, -⟩
  simp [h] at hmem

/-- Some condition of the rule refers to the type. -/
def Rule.RefersTo (type : String) (rule : Rule) : Prop :=
  ∃ condition ∈ rule.conditions, condition.RefersTo type

instance (type : String) (rule : Rule) : Decidable (rule.RefersTo type) :=
  inferInstanceAs (Decidable (∃ condition ∈ rule.conditions, condition.RefersTo type))

namespace TypeIndex

/-- The positions of the conditions of a rule that refer to a type, counted from some position on. -/
def places (type name : String) : Nat → List Condition → List (String × Nat)
  | _, [] => []
  | position, condition :: conditions =>
    if condition.RefersTo type then
      (name, position) :: places type name (position + 1) conditions
    else places type name (position + 1) conditions

attribute [local simp] places addConditions

theorem mem_places {type name : String} {position : Nat} {conditions : List Condition}
    {place : String × Nat} :
    place ∈ places type name position conditions
      ↔ place.1 = name ∧ position ≤ place.2
        ∧ ∃ condition, conditions[place.2 - position]? = some condition
          ∧ condition.RefersTo type := by
  induction conditions generalizing position with
  | nil => simp
  | cons condition conditions ih =>
    obtain ⟨n, i⟩ := place
    have hrest : (n, i) ∈ places type name (position + 1) conditions
        ↔ n = name ∧ position < i ∧ ∃ c, (condition :: conditions)[i - position]? = some c
          ∧ c.RefersTo type := by
      rw [ih, Nat.succ_le_iff]
      refine and_congr_right fun _ => and_congr_right fun hlt => ?_
      rw [show i - position = (i - (position + 1)) + 1 by omega, List.getElem?_cons_succ]
    simp only [places]
    split
    . next hrefers =>
      rw [List.mem_cons, hrest, Prod.mk.injEq]
      constructor
      . rintro (⟨rfl, rfl⟩ | ⟨hn, hlt, hc⟩)
        . exact ⟨rfl, Nat.le_refl i, condition, by simp, hrefers⟩
        . exact ⟨hn, Nat.le_of_lt hlt, hc⟩
      . rintro ⟨hn, hle, hc⟩
        by_cases heq : i = position
        . exact .inl ⟨hn, heq⟩
        . exact .inr ⟨hn, by omega, hc⟩
    . next hnot =>
      rw [hrest]
      constructor
      . rintro ⟨hn, hlt, hc⟩
        exact ⟨hn, Nat.le_of_lt hlt, hc⟩
      . rintro ⟨hn, hle, c, hc, hrefers⟩
        refine ⟨hn, ?_, c, hc, hrefers⟩
        apply Nat.lt_of_le_of_ne hle
        rintro rfl
        simp only [Nat.sub_self, List.getElem?_cons_zero, Option.some.injEq] at hc
        exact hnot (hc ▸ hrefers)

theorem ascending_places (type name : String) (position : Nat) (conditions : List Condition) :
    (places type name position conditions).Pairwise fun a b => a.2 < b.2 := by
  induction conditions generalizing position with
  | nil => exact .nil
  | cons condition conditions ih =>
    simp only [places]
    split
    . rw [List.pairwise_cons]
      refine ⟨?_, ih _⟩
      intro place hplace
      have := (mem_places.mp hplace).2.1
      simp only
      omega
    . exact ih _

/-- The positions of all rules that refer to a type. -/
def placesOf (type : String) (rules : List Rule) : List (String × Nat) :=
  rules.flatMap fun rule => places type rule.name 0 rule.conditions

theorem entries_append (type other : String) (entry : α) (table : List (String × List α)) :
    entries type (append other entry table)
      = if type = other then entries type table ++ [entry] else entries type table := by
  unfold entries
  induction table with
  | nil =>
    by_cases h : type = other
    . simp [append, h]
    . have hne : (type == other) = false := by simpa using h
      simp [append, List.lookup_cons, hne, h]
  | cons row table ih =>
    obtain ⟨t, es⟩ := row
    simp only [append]
    by_cases ht : t = other
    . subst ht
      simp only [if_true, List.lookup_cons]
      by_cases h : type = t
      . simp [h]
      . have hne : (type == t) = false := by simpa using h
        simp [hne, h]
    . simp only [ht, if_false, List.lookup_cons]
      by_cases h : type = t
      . subst h
        simp [ht]
      . have hne : (type == t) = false := by simpa using h
        simp only [hne]
        exact ih

theorem positionsOf_addConditions (type name : String) (index : TypeIndex) (position : Nat)
    (conditions : List Condition) :
    (addConditions name index position conditions).1.positionsOf type
      = index.positionsOf type ++ places type name position conditions := by
  induction conditions generalizing index position with
  | nil => simp
  | cons condition conditions ih =>
    simp only [addConditions, places]
    cases hfilter : condition.filter? with
    | none =>
      simp only [Condition.not_refersTo hfilter, if_false]
      exact ih index (position + 1)
    | some filter =>
      have hrefers : condition.RefersTo type ↔ type = filter.type := Condition.refersTo_iff hfilter
      have happend : ∀ index' : TypeIndex,
          index'.positions = append filter.type (name, position) index.positions →
          (addConditions name index' (position + 1) conditions).1.positionsOf type
            = index.positionsOf type ++ if condition.RefersTo type then
                (name, position) :: places type name (position + 1) conditions
              else places type name (position + 1) conditions := by
        intro index' hpositions
        rw [ih]
        unfold positionsOf
        rw [hpositions, entries_append]
        by_cases htype : type = filter.type
        . rw [if_pos htype, if_pos (hrefers.mpr htype), List.append_assoc]
          rfl
        . rw [if_neg htype, if_neg fun h => htype (hrefers.mp h)]
      simp only
      split
      . exact happend _ rfl
      . exact happend _ rfl

theorem positionsOf_rebuild (type : String) (index : TypeIndex) (rules : List Rule) :
    (index.rebuild rules).positionsOf type = placesOf type rules := by
  have hfold : ∀ (rules : List Rule) (index : TypeIndex),
      (rules.foldl (fun index rule => (index.add rule).1) index).positionsOf type
        = index.positionsOf type ++ placesOf type rules := by
    intro rules
    induction rules with
    | nil => simp [placesOf]
    | cons rule rules ih =>
      intro index
      rw [List.foldl_cons, ih, add, positionsOf_addConditions]
      simp [placesOf]
  rw [rebuild, hfold]
  rfl

theorem positionsOf_build (type : String) (rules : List Rule) :
    (build rules).positionsOf type = placesOf type rules :=
  positionsOf_rebuild type {} rules

theorem mem_placesOf {type : String} {rules : List Rule} {place : String × Nat} :
    place ∈ placesOf type rules
      ↔ ∃ rule ∈ rules, place.1 = rule.name
        ∧ ∃ condition, rule.conditions[place.2]? = some condition ∧ condition.RefersTo type := by
  simp only [placesOf, List.mem_flatMap, mem_places, Nat.zero_le, true_and, Nat.sub_zero]

theorem nodup_places (type name : String) (position : Nat) (conditions : List Condition) :
    (places type name position conditions).Nodup := by
  apply (ascending_places type name position conditions).imp
  rintro a b hlt rfl
  exact Nat.lt_irrefl _ hlt

theorem nodup_placesOf (type : String) {rules : List Rule} (h : (rules.map (·.name)).Nodup) :
    (placesOf type rules).Nodup := by
  induction rules with
  | nil => exact .nil
  | cons rule rules ih =>
    rw [List.map_cons, List.nodup_cons] at h
    simp only [placesOf, List.flatMap_cons]
    rw [List.nodup_append]
    refine ⟨nodup_places _ _ _ _, ih h.2, ?_⟩
    rintro place hplace other hother rfl
    obtain ⟨found, hfound, hname, -⟩ := mem_placesOf.mp hother
    apply h.1
    rw [← (mem_places.mp hplace).1, hname]
    exact List.mem_map.mpr ⟨found, hfound, rfl⟩

theorem ascending_placesOf (type : String) {rules : List Rule} (h : (rules.map (·.name)).Nodup) :
    (placesOf type rules).Pairwise fun a b => a.1 = b.1 → a.2 < b.2 := by
  induction rules with
  | nil => exact .nil
  | cons rule rules ih =>
    rw [List.map_cons, List.nodup_cons] at h
    simp only [placesOf, List.flatMap_cons]
    rw [List.pairwise_append]
    refine ⟨?_, ih h.2, ?_⟩
    . apply (ascending_places type rule.name 0 rule.conditions).imp
      intro a b hlt _
      exact hlt
    . intro place hplace other hother heq
      obtain ⟨found, hfound, hname, -⟩ := mem_placesOf.mp hother
      apply absurd (List.mem_map.mpr ⟨found, hfound, rfl⟩) (_ : found.name ∉ rules.map (·.name))
      rw [← hname, ← heq, (mem_places.mp hplace).1]
      exact h.1

/-! ### Rules -/

theorem lookup_addConditions (type name : String) (index : TypeIndex) (position : Nat)
    (conditions : List Condition) :
    (addConditions name index position conditions).1.lookup type
      = if (∃ condition ∈ conditions, condition.RefersTo type) ∧ name ∉ index.lookup type then
          index.lookup type ++ [name]
        else index.lookup type := by
  induction conditions generalizing index position with
  | nil => simp
  | cons condition conditions ih =>
    simp only [addConditions, List.mem_cons, exists_eq_or_imp]
    cases hfilter : condition.filter? with
    | none =>
      simp only [Condition.not_refersTo hfilter, false_or]
      exact ih index (position + 1)
    | some filter =>
      simp only [Condition.refersTo_iff hfilter]
      split
      . next hcontains =>
        rw [ih]
        by_cases htype : type = filter.type
        . have hmem : name ∈ index.lookup type := by simpa [htype] using hcontains
          simp only [lookup] at hmem ⊢
          simp [hmem]
        . simp only [htype, false_or]
          rfl
      . next hcontains =>
        simp only [ih]
        simp only [lookup, entries_append]
        by_cases htype : type = filter.type
        . have hmem : name ∉ entries type index.rules := by simpa [htype, lookup] using hcontains
          simp [htype, htype ▸ hmem]
        . simp [htype]

theorem lookup_add (type : String) (index : TypeIndex) (rule : Rule) :
    (index.add rule).1.lookup type
      = if rule.RefersTo type ∧ rule.name ∉ index.lookup type then index.lookup type ++ [rule.name]
        else index.lookup type :=
  lookup_addConditions type rule.name index 0 rule.conditions

theorem lookup_rebuild (type : String) (index : TypeIndex) {rules : List Rule}
    (h : (rules.map (·.name)).Nodup) :
    (index.rebuild rules).lookup type = (rules.filter (·.RefersTo type)).map (·.name) := by
  have hfold : ∀ (rules : List Rule) (index : TypeIndex), (rules.map (·.name)).Nodup →
      (∀ rule ∈ rules, rule.name ∉ index.lookup type) →
      (rules.foldl (fun index rule => (index.add rule).1) index).lookup type
        = index.lookup type ++ (rules.filter (·.RefersTo type)).map (·.name) := by
    intro rules
    induction rules with
    | nil => simp
    | cons rule rules ih =>
      intro index hnames hnew
      rw [List.map_cons, List.nodup_cons] at hnames
      have hfirst : (index.add rule).1.lookup type
          = index.lookup type ++ ([rule].filter (·.RefersTo type)).map (·.name) := by
        rw [lookup_add]
        simp only [hnew rule (by simp), not_false_eq_true, and_true]
        by_cases hrefers : rule.RefersTo type
        . rw [if_pos hrefers, List.filter_cons_of_pos (by simpa using hrefers)]
          rfl
        . rw [if_neg hrefers, List.filter_cons_of_neg (by simpa using hrefers)]
          simp
      rw [List.foldl_cons, ih _ hnames.2, hfirst, List.append_assoc, ← List.map_append,
        ← List.filter_append]
      . rfl
      . intro other hother hmem
        rw [hfirst, List.mem_append] at hmem
        rcases hmem with hold | hmem
        . exact hnew other (by simp [hother]) hold
        . obtain ⟨found, hfound, hname⟩ := List.mem_map.mp hmem
          rw [List.mem_singleton.mp (List.mem_filter.mp hfound).1] at hname
          exact hnames.1 (hname ▸ List.mem_map_of_mem hother)
  rw [rebuild, hfold rules index.clear h (fun _ _ => List.not_mem_nil)]
  rfl

end TypeIndex
end ForwardChaining
