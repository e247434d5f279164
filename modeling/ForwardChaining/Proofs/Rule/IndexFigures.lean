import ForwardChaining.Proofs.Rule.TypeIndex
import Mathlib

/-!
This module contains the type index after it was built for some rules: it lists their conditions and no
others, in the order of their declaration, and its figures count each of these conditions once.
-/

namespace ForwardChaining

/-- The conditions of some rules that filter facts: all but the joins. -/
def filtering (rules : List Rule) : List Condition :=
  rules.flatMap fun rule => rule.conditions.filter (·.filter?.isSome)

namespace TypeIndex

/-- The place of a rule in the order of declaration. -/
def rank (rules : List Rule) (name : String) : Nat :=
  (rules.map (·.name)).idxOf name

/-- The figures by kind of condition; without conditions there are none. -/
def kindFigures (stats : Fields) : Fields :=
  match stats.lookup "positions_by_kind" with
  | some (.record kinds) => kinds
  | _ => []

/-- The index belongs to the rules. -/
structure Lists (index : TypeIndex) (rules : List Rule) : Prop where
  mem_positionsOf : ∀ type name i, (name, i) ∈ index.positionsOf type
    ↔ ∃ rule ∈ rules, rule.name = name
      ∧ ∃ condition, rule.conditions[i]? = some condition ∧ condition.RefersTo type
  ascending_positionsOf : ∀ type, (index.positionsOf type).Pairwise fun a b =>
    rank rules a.1 < rank rules b.1 ∨ a.1 = b.1 ∧ a.2 < b.2
  mem_lookup : ∀ type name, name ∈ index.lookup type
    ↔ ∃ rule ∈ rules, rule.name = name ∧ rule.RefersTo type
  ascending_lookup : ∀ type, (index.lookup type).Pairwise fun a b => rank rules a < rank rules b
  figures : ∃ counts : List (String × Nat),
    kindFigures (index.stats rules) = counts.map (fun (kind, n) => (kind, .int n))
    ∧ (counts.map (·.1)).Nodup
    ∧ (∀ kind, (counts.lookup kind).getD 0 = (filtering rules).countP (·.kind = kind))
    ∧ (counts.map (·.2)).sum = (filtering rules).length

/-! ### Order -/

theorem pairwise_rank {rules : List Rule} (h : (rules.map (·.name)).Nodup) :
    rules.Pairwise fun a b => rank rules a.name < rank rules b.name := by
  rw [← List.pairwise_map (R := fun a b => rank rules a < rank rules b), List.pairwise_iff_getElem]
  intro i j hi hj hlt
  rw [rank, rank, h.idxOf_getElem i hi, h.idxOf_getElem j hj]
  exact hlt

theorem ascending_placesOf_rank (type : String) {rules : List Rule}
    (h : (rules.map (·.name)).Nodup) :
    (placesOf type rules).Pairwise fun a b =>
      rank rules a.1 < rank rules b.1 ∨ a.1 = b.1 ∧ a.2 < b.2 := by
  unfold placesOf
  rw [List.pairwise_flatMap]
  constructor
  . intro rule _
    apply (ascending_places type rule.name 0 rule.conditions).imp_of_mem
    intro a b ha hb hlt
    exact .inr ⟨(mem_places.mp ha).1.trans (mem_places.mp hb).1.symm, hlt⟩
  . apply (pairwise_rank h).imp
    intro rule other hlt a ha b hb
    rw [(mem_places.mp ha).1, (mem_places.mp hb).1]
    exact .inl hlt

/-! ### The listed conditions, over all types -/

/-- The places of the conditions of a rule that filter facts, counted from some position on. -/
def filterPlaces (name : String) (position : Nat) (conditions : List Condition) :
    List (String × Nat) :=
  ((conditions.zipIdx position).filter (·.1.filter?.isSome)).map fun (_, i) => (name, i)

theorem perm_append (type : String) (entry : α) (table : List (String × List α)) :
    ((append type entry table).flatMap (·.2)).Perm (table.flatMap (·.2) ++ [entry]) := by
  induction table with
  | nil => simp [append]
  | cons row table ih =>
    obtain ⟨t, es⟩ := row
    simp only [append]
    split
    . simp only [List.flatMap_cons, List.append_assoc]
      exact List.perm_append_comm.append_left es
    . simp only [List.flatMap_cons, List.append_assoc]
      exact ih.append_left es

theorem perm_addConditions (name : String) (index : TypeIndex) (position : Nat)
    (conditions : List Condition) :
    ((addConditions name index position conditions).1.positions.flatMap (·.2)).Perm
      (index.positions.flatMap (·.2) ++ filterPlaces name position conditions) := by
  induction conditions generalizing index position with
  | nil => simp [addConditions, filterPlaces]
  | cons condition conditions ih =>
    simp only [addConditions]
    cases hfilter : condition.filter? with
    | none =>
      have hplaces : filterPlaces name position (condition :: conditions)
          = filterPlaces name (position + 1) conditions := by
        simp [filterPlaces, hfilter]
      rw [hplaces]
      exact ih index (position + 1)
    | some filter =>
      have hplaces : filterPlaces name position (condition :: conditions)
          = [(name, position)] ++ filterPlaces name (position + 1) conditions := by
        simp [filterPlaces, hfilter]
      have happend : ∀ index' : TypeIndex,
          index'.positions = append filter.type (name, position) index.positions →
          ((addConditions name index' (position + 1) conditions).1.positions.flatMap (·.2)).Perm
            (index.positions.flatMap (·.2) ++ filterPlaces name position (condition :: conditions)) := by
        intro index' hpositions
        rw [hplaces, ← List.append_assoc]
        apply (ih index' (position + 1)).trans
        rw [hpositions]
        exact (perm_append filter.type (name, position) index.positions).append_right _
      simp only
      split
      . exact happend _ rfl
      . exact happend _ rfl

theorem perm_rebuild (index : TypeIndex) (rules : List Rule) :
    ((index.rebuild rules).positions.flatMap (·.2)).Perm
      (rules.flatMap fun rule => filterPlaces rule.name 0 rule.conditions) := by
  have hfold : ∀ (rules : List Rule) (index : TypeIndex),
      ((rules.foldl (fun index rule => (index.add rule).1) index).positions.flatMap (·.2)).Perm
        (index.positions.flatMap (·.2)
          ++ rules.flatMap fun rule => filterPlaces rule.name 0 rule.conditions) := by
    intro rules
    induction rules with
    | nil => simp
    | cons rule rules ih =>
      intro index
      rw [List.foldl_cons, List.flatMap_cons, ← List.append_assoc]
      exact (ih _).trans ((perm_addConditions rule.name index 0 rule.conditions).append_right _)
  exact hfold rules index.clear

/-! ### Counting by kind -/

theorem ruleNamed_eq_some {rules : List Rule} (h : (rules.map (·.name)).Nodup) {rule : Rule}
    (hrule : rule ∈ rules) : ruleNamed rule.name rules = some rule := by
  unfold ruleNamed
  cases hfound : rules.reverse.find? (·.name = rule.name) with
  | none =>
    rw [List.find?_eq_none] at hfound
    exact absurd (by simp) (hfound rule (List.mem_reverse.mpr hrule))
  | some found =>
    have hmem : found ∈ rules := List.mem_reverse.mp (List.mem_of_find?_eq_some hfound)
    have hname : found.name = rule.name := by simpa using List.find?_some hfound
    rw [List.inj_on_of_nodup_map h hmem hrule hname]

/-- The condition at a place. -/
def conditionAt (rules : List Rule) (place : String × Nat) : Option Condition :=
  (ruleNamed place.1 rules).bind (·.conditions[place.2]?)

theorem filterMap_conditionAt {rules : List Rule} (h : (rules.map (·.name)).Nodup) :
    (rules.flatMap fun rule => filterPlaces rule.name 0 rule.conditions).filterMap
      (conditionAt rules) = filtering rules := by
  rw [List.filterMap_flatMap, filtering]
  apply List.flatMap_congr
  intro rule hrule
  have hat : ∀ place ∈ rule.conditions.zipIdx.filter (·.1.filter?.isSome),
      conditionAt rules (rule.name, place.2) = some place.1 := by
    intro place hplace
    rw [conditionAt, ruleNamed_eq_some h hrule, Option.bind_some]
    exact List.mem_zipIdx_iff_getElem?.mp (List.mem_filter.mp hplace).1
  rw [filterPlaces, List.filterMap_map]
  calc (rule.conditions.zipIdx.filter (·.1.filter?.isSome)).filterMap
        (fun place => conditionAt rules (rule.name, place.2))
      = (rule.conditions.zipIdx.filter (·.1.filter?.isSome)).filterMap (fun place => some place.1) :=
        List.filterMap_congr hat
    _ = (rule.conditions.zipIdx.filter (·.1.filter?.isSome)).map (·.1) := by
      rw [← List.filterMap_eq_map]
      rfl
    _ = rule.conditions.filter (·.filter?.isSome) := by
      rw [← List.zipIdx_map_fst 0 rule.conditions, List.filter_map, List.zipIdx_map_fst]
      rfl

theorem foldl_add (conditions : List Condition) (counts : KindCounts) :
    conditions.foldl KindCounts.add counts = {
      pattern := counts.pattern + conditions.countP (·.kind = "pattern")
      negation := counts.negation + conditions.countP (·.kind = "not")
      aggregate := counts.aggregate + conditions.countP (·.kind = "aggregate") } := by
  induction conditions generalizing counts with
  | nil => simp
  | cons condition conditions ih =>
    rw [List.foldl_cons, ih]
    cases condition <;> simp [KindCounts.add, Condition.kind, Nat.add_assoc, Nat.add_comm 1]

theorem kindCounts_rebuild (index : TypeIndex) {rules : List Rule}
    (h : (rules.map (·.name)).Nodup) :
    (index.rebuild rules).kindCounts rules = {
      pattern := (filtering rules).countP (·.kind = "pattern")
      negation := (filtering rules).countP (·.kind = "not")
      aggregate := (filtering rules).countP (·.kind = "aggregate") } := by
  have hcounts : (index.rebuild rules).kindCounts rules
      = (((index.rebuild rules).positions.flatMap (·.2)).filterMap (conditionAt rules)).foldl
        KindCounts.add {} := by
    rw [List.foldl_filterMap, kindCounts]
    congr 1
    funext counts place
    obtain ⟨name, position⟩ := place
    simp only [conditionAt]
    cases (ruleNamed name rules).bind (·.conditions[position]?) <;> rfl
  have hperm : (((index.rebuild rules).positions.flatMap (·.2)).filterMap (conditionAt rules)).Perm
      (filtering rules) := by
    rw [← filterMap_conditionAt h]
    exact (perm_rebuild index rules).filterMap _
  rw [hcounts, foldl_add]
  simp only [hperm.countP_eq, Nat.zero_add]

/-! ### The figures -/

theorem kind_of_mem_filtering {rules : List Rule} {condition : Condition}
    (h : condition ∈ filtering rules) :
    condition.kind ∈ ["pattern", "not", "aggregate"] := by
  obtain ⟨rule, -, hmem⟩ := List.mem_flatMap.mp h
  have hfilter := (List.mem_filter.mp hmem).2
  cases condition with
  | join => cases hfilter
  | pattern | negation | aggregate => simp [Condition.kind]

theorem length_eq_countP {conditions : List Condition}
    (h : ∀ condition ∈ conditions, condition.kind ∈ ["pattern", "not", "aggregate"]) :
    conditions.length = conditions.countP (·.kind = "pattern")
      + conditions.countP (·.kind = "not") + conditions.countP (·.kind = "aggregate") := by
  induction conditions with
  | nil => rfl
  | cons condition conditions ih =>
    rw [List.forall_mem_cons] at h
    have hrest := ih h.2
    have hkind := h.1
    simp only [List.mem_cons, List.not_mem_nil, or_false] at hkind
    rcases hkind with hkind | hkind | hkind <;> simp [hkind] <;> omega

theorem filtering_of_empty {index : TypeIndex} {rules : List Rule} (h : (rules.map (·.name)).Nodup)
    (hempty : (index.rebuild rules).rules = []) : filtering rules = [] := by
  rw [List.eq_nil_iff_forall_not_mem]
  intro condition hcondition
  obtain ⟨rule, hrule, hmem⟩ := List.mem_flatMap.mp hcondition
  obtain ⟨hcondition, hfilter⟩ := List.mem_filter.mp hmem
  obtain ⟨filter, hfilter⟩ := Option.isSome_iff_exists.mp hfilter
  have hlookup : rule.name ∈ (index.rebuild rules).lookup filter.type := by
    rw [lookup_rebuild filter.type index h]
    apply List.mem_map_of_mem
    rw [List.mem_filter]
    exact ⟨hrule, by simpa using ⟨condition, hcondition, filter, hfilter, rfl⟩⟩
  rw [lookup, hempty] at hlookup
  cases hlookup

theorem figures_stats (index : TypeIndex) (rules : List Rule) (hne : index.rules ≠ []) :
    kindFigures (index.stats rules) = (index.kindCounts rules).toFields := by
  unfold stats
  rw [if_neg (by simpa using hne)]
  cases (index.kindCounts rules).toFields <;> simp [kindFigures, List.lookup_cons]

/-- The counts by kind, in the order in which they are shown. -/
def KindCounts.entries (counts : KindCounts) : List (String × Nat) :=
  [("pattern", counts.pattern), ("not", counts.negation), ("aggregate", counts.aggregate)].filter
    (·.2 != 0)

theorem lookup_entries (counts : KindCounts) (kind : String) :
    (counts.entries.lookup kind).getD 0
      = if kind = "pattern" then counts.pattern else if kind = "not" then counts.negation
        else if kind = "aggregate" then counts.aggregate else 0 := by
  obtain ⟨a, b, c⟩ := counts
  unfold KindCounts.entries
  by_cases ha : a = 0 <;> by_cases hb : b = 0 <;> by_cases hc : c = 0 <;>
    simp [ha, hb, hc, List.lookup_cons] <;> grind

theorem sum_entries (counts : KindCounts) :
    (counts.entries.map (·.2)).sum = counts.pattern + counts.negation + counts.aggregate := by
  obtain ⟨a, b, c⟩ := counts
  unfold KindCounts.entries
  by_cases ha : a = 0 <;> by_cases hb : b = 0 <;> by_cases hc : c = 0 <;>
    simp [ha, hb, hc, Nat.add_assoc]

theorem figures_rebuild (index : TypeIndex) {rules : List Rule} (h : (rules.map (·.name)).Nodup) :
    ∃ counts : List (String × Nat),
      kindFigures ((index.rebuild rules).stats rules) = counts.map (fun (kind, n) => (kind, .int n))
      ∧ (counts.map (·.1)).Nodup
      ∧ (∀ kind, (counts.lookup kind).getD 0 = (filtering rules).countP (·.kind = kind))
      ∧ (counts.map (·.2)).sum = (filtering rules).length := by
  by_cases hempty : (index.rebuild rules).rules = []
  . refine ⟨[], ?_, .nil, ?_, ?_⟩
    . simp [stats, hempty, kindFigures, List.lookup_cons]
    . simp [filtering_of_empty h hempty]
    . simp [filtering_of_empty h hempty]
  . refine ⟨((index.rebuild rules).kindCounts rules).entries, figures_stats _ _ hempty, ?_, ?_, ?_⟩
    . exact (List.filter_sublist.map _).nodup (by simp)
    . intro kind
      rw [lookup_entries, kindCounts_rebuild index h]
      split
      . next heq => rw [heq]
      split
      . next heq => rw [heq]
      split
      . next heq => rw [heq]
      . next hpattern hnot haggregate =>
        rw [eq_comm, List.countP_eq_zero]
        intro condition hcondition heq
        have hkind := kind_of_mem_filtering hcondition
        rw [of_decide_eq_true heq] at hkind
        simp [hpattern, hnot, haggregate] at hkind
    . rw [sum_entries, kindCounts_rebuild index h]
      exact (length_eq_countP fun _ hcondition => kind_of_mem_filtering hcondition).symm

/--
The index that is built for rules of distinct names belongs to them, whatever was in it before.
-/
theorem lists_rebuild (index : TypeIndex) {rules : List Rule} (h : (rules.map (·.name)).Nodup) :
    (index.rebuild rules).Lists rules where
  mem_positionsOf := by
    intro type name i
    rw [positionsOf_rebuild, mem_placesOf]
    simp only [eq_comm]
  ascending_positionsOf := by
    intro type
    rw [positionsOf_rebuild]
    exact ascending_placesOf_rank type h
  mem_lookup := by
    intro type name
    rw [lookup_rebuild type index h, List.mem_map]
    simp only [List.mem_filter, decide_eq_true_eq]
    constructor
    . rintro ⟨rule, ⟨hrule, hrefers⟩, hname⟩
      exact ⟨rule, hrule, hname, hrefers⟩
    . rintro ⟨rule, hrule, hname, hrefers⟩
      exact ⟨rule, ⟨hrule, hrefers⟩, hname⟩
  ascending_lookup := by
    intro type
    rw [lookup_rebuild type index h, List.pairwise_map]
    exact (pairwise_rank h).filter _
  figures := figures_rebuild index h

/-- Rules whose conditions are of all kinds. -/
def billingRules : List Rule := [
  { name := "bill"
    conditions := [.pattern { type := "order" } "o", .join { op := .ne },
      .negation { type := "invoice" } [⟨"order", ⟨"o", "id"⟩⟩], .pattern { type := "order" } "p"] },
  { name := "greet", conditions := [.join {}] },
  { name := "tally", conditions := [.aggregate { type := "order" } [] {}], order := 2 }]

/-- The index of another rule. -/
def staleIndex : TypeIndex :=
  .build [{ name := "bill", conditions := [.pattern { type := "customer" } "c"] }]

theorem lists_rebuild_billing : (billingRules.map (·.name)).Nodup
    ∧ (staleIndex.rebuild billingRules).Lists billingRules
    ∧ staleIndex.lookup "customer" = ["bill"]
    ∧ (staleIndex.rebuild billingRules).lookup "customer" = []
    ∧ (staleIndex.rebuild billingRules).lookup "order" = ["bill", "tally"]
    ∧ (staleIndex.rebuild billingRules).positionsOf "order" = [("bill", 0), ("bill", 3), ("tally", 0)]
    ∧ kindFigures ((staleIndex.rebuild billingRules).stats billingRules)
      = [("pattern", .int 2), ("not", .int 1), ("aggregate", .int 1)] :=
  have hnames : (billingRules.map (·.name)).Nodup := by decide
  ⟨hnames, lists_rebuild staleIndex hnames, by cbv, by cbv, by cbv, by cbv,
    (figures_stats _ _ (by decide)).trans (by cbv)⟩

end TypeIndex
end ForwardChaining
