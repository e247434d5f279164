import ForwardChaining.Proofs.Store.Mutation

/-!
This module contains what keeps the table of live facts in order: the facts stand in the order of their
identities, those of a type are filed under it, and each has been accepted. So the queries answer what they
are asked for.
-/

namespace ForwardChaining

namespace FactIndex

theorem identities_cons (type : String) (ids : List Int) (index : FactIndex) (other : String) :
    identities ((type, ids) :: index) other = if other = type then ids else index.identities other := by
  unfold identities
  rw [List.lookup_cons]
  by_cases h : other = type
  . simp [h]
  . rw [beq_false_of_ne h, if_neg h]

theorem identities_add (type : String) (id : Int) (index : FactIndex) (other : String) :
    (index.add type id).identities other
      = if other = type then index.identities other ++ [id] else index.identities other := by
  induction index with
  | nil =>
    rw [add, identities_cons]
    rfl
  | cons entry index ih =>
    simp only [add]
    split
    . next heq =>
      rw [identities_cons, identities_cons, heq]
      split <;> rfl
    . next hne =>
      rw [identities_cons, identities_cons, ih]
      split
      . next heq => rw [if_neg (heq ▸ hne)]
      . rfl

theorem identities_remove (type : String) (id : Int) (index : FactIndex) (other : String) :
    (index.remove type id).identities other
      = if other = type then (index.identities other).filter (· ≠ id) else index.identities other := by
  induction index with
  | nil => simp [remove, identities]
  | cons entry index ih =>
    change identities ((entry.1, _) :: remove type id index) other = _
    rw [identities_cons, identities_cons, ih]
    by_cases h : other = entry.1
    . rw [if_pos h, if_pos h, h]
    . rw [if_neg h, if_neg h]

end FactIndex

namespace FactTable

/-- The facts of a type, among some. -/
def ofType (type : String) (facts : List Fact) : List Fact :=
  facts.filter (·.type = type)

/-- The table is in order. -/
structure Tidy (table : FactTable) : Prop where
  wellFormed : table.WellFormed
  ascending : (table.live.map (·.id)).Pairwise (· < ·)
  filed : ∀ type, table.index.identities type = (ofType type table.live).map (·.id)
  accepted : ∀ fact ∈ table.live, table.requireDeclared (.text fact.type) fact.data = .ok ()

theorem tidy_empty (declared : Option (List FactType)) : ({ declared } : FactTable).Tidy := by
  refine ⟨⟨List.nodup_nil, ?_⟩, List.Pairwise.nil, fun type => rfl, ?_⟩
  . intro fact hfact
    cases hfact
  . intro fact hfact
    cases hfact

theorem map_id_ofType_replace {table : FactTable} (h : table.WellFormed) {fact previous : Fact}
    (hprevious : previous ∈ table.live) (hid : fact.id = previous.id) (htype : fact.type = previous.type)
    (type : String) :
    (ofType type (replace fact table.live)).map (·.id) = (ofType type table.live).map (·.id) := by
  -- the snapshot that is replaced has the same type, as identities are distinct
  have hsame : ∀ old ∈ table.live, (if old.id = fact.id then fact else old).type = old.type := by
    intro old hold
    split
    . next heq => rw [h.eq_of_id hprevious hold (heq.trans hid), htype]
    . rfl
  unfold ofType replace
  rw [List.filter_map, List.map_map]
  have hfilter : table.live.filter ((fun fact => decide (fact.type = type))
      ∘ fun old => if old.id = fact.id then fact else old) = table.live.filter (·.type = type) := by
    apply List.filter_congr
    intro old hold
    simp only [Function.comp_apply, hsame old hold]
  rw [hfilter]
  apply List.map_congr_left
  intro old _
  by_cases heq : old.id = fact.id <;> simp [heq]

theorem ofType_without {table : FactTable} (h : table.WellFormed) {fact : Fact} (hfact : fact ∈ table.live)
    (type : String) : (ofType type (without fact.id table.live)).map (·.id)
      = if type = fact.type then ((ofType type table.live).map (·.id)).filter (· ≠ fact.id)
        else (ofType type table.live).map (·.id) := by
  unfold ofType without
  rw [List.filter_filter]
  split
  . rw [List.filter_map, List.filter_filter]
    congr 2
    funext other
    exact Bool.and_comm _ _
  . next hne =>
    congr 1
    apply List.filter_congr
    intro other hother
    by_cases heq : other.type = type
    . -- the fact that goes is the only one of its identity, and it is of another type
      have hnot : other.id ≠ fact.id := by
        intro hid
        rw [h.eq_of_id hfact hother hid] at heq
        exact hne heq.symm
      simp [heq, hnot]
    . simp [heq]

theorem Moves.tidy {table : FactTable} (htidy : table.Tidy) {mutation : Mutation}
    {outcome : FactTable × Except Fault (Option Change)} (h : table.Moves mutation outcome) :
    outcome.1.Tidy := by
  have hwell := h.follows.wellFormed htidy.wellFormed
  cases h with
  | refused | edge => exact htidy
  | wasted | begun => exact ⟨hwell, htidy.ascending, htidy.filed, htidy.accepted⟩
  | inserted data fact hid hversion hrecency haccepted =>
    refine ⟨hwell, ?_, ?_, ?_⟩
    . rw [List.map_append, List.pairwise_append]
      refine ⟨htidy.ascending, List.pairwise_singleton _ _, ?_⟩
      simp only [List.mem_map, List.map_cons, List.map_nil, List.mem_singleton]
      rintro _ ⟨other, hother, rfl⟩ _ rfl
      have hbelow := htidy.wellFormed.below other hother
      omega
    . intro type
      rw [FactIndex.identities_add, htidy.filed]
      by_cases heq : type = fact.type
      . simp [ofType, heq]
      . simp [ofType, heq, Ne.symm heq]
    . intro other hother
      rcases List.mem_append.mp hother with hold | hnew
      . exact htidy.accepted other hold
      . rw [List.mem_singleton.mp hnew]
        exact haccepted
  | updated fact previous hmade hprevious hid htype hversion hrecency haccepted =>
    refine ⟨hwell, ?_, ?_, ?_⟩
    . rw [map_id_replace]
      exact htidy.ascending
    . intro type
      rw [htidy.filed]
      exact (map_id_ofType_replace htidy.wellFormed hprevious hid htype type).symm
    . intro other hother
      rcases mem_replace hother with rfl | hold
      . exact haccepted
      . exact htidy.accepted other hold
  | retracted ref fact href hfact =>
    refine ⟨hwell, ?_, ?_, ?_⟩
    . exact htidy.ascending.sublist (List.filter_sublist.map _)
    . intro type
      rw [FactIndex.identities_remove, htidy.filed]
      exact (ofType_without htidy.wellFormed hfact type).symm
    . intro other hother
      exact htidy.accepted other (List.mem_of_mem_filter hother)

theorem declared_mutate (table : FactTable) (mutation : Mutation) :
    (table.mutate mutation).1.declared = table.declared := by
  have hmoves := table.moves_mutate mutation
  generalize table.mutate mutation = outcome at hmoves ⊢
  cases hmoves <;> rfl

/-! ### Queries -/

theorem mapM_filed {table : FactTable} (h : table.WellFormed) {facts : List Fact}
    (hfacts : facts ⊆ table.live) : (facts.map (·.id)).mapM table.filed = .ok facts := by
  induction facts with
  | nil => rfl
  | cons fact facts ih =>
    rw [List.cons_subset] at hfacts
    have hfound : table.find? fact.id = some fact := (find?_eq_some_iff h).mpr ⟨hfacts.1, rfl⟩
    have hfiled : table.filed fact.id = .ok fact := by rw [filed, hfound]
    rw [List.map_cons, List.mapM_cons, hfiled, ih hfacts.2]
    rfl

theorem Tidy.scan_eq {table : FactTable} (h : table.Tidy) (type : String) :
    table.scan (.text type) = .ok (ofType type table.live) := by
  change (table.index.identities type).mapM table.filed = _
  rw [h.filed]
  exact mapM_filed h.wellFormed (List.filter_subset_self _)

theorem get_int (table : FactTable) (id : Int) : table.get (.int id) = match table.find? id with
    | some fact => .ok fact
    | none => if id ∈ table.retracted then .error (.staleReference (.int id))
      else .error (.noSuchFact (.int id)) := by
  unfold get lookup
  simp only [Value.integer?, Option.bind_some, Option.any_some, List.contains_iff_mem]
  change (match table.find? id with
    | some fact => _
    | none => _) = _
  cases table.find? id <;> rfl

theorem Tidy.declared {table : FactTable} (h : table.Tidy) {types : List FactType}
    (hdeclared : table.declared = some types) {fact : Fact} (hfact : fact ∈ table.live) :
    ∃ type, declaration? types (.text fact.type) = some type
      ∧ ∀ entry ∈ fact.data, type.accepts entry.1 := by
  have haccepted := h.accepted fact hfact
  unfold requireDeclared at haccepted
  rw [hdeclared] at haccepted
  simp only [doBind_eq_ok] at haccepted
  obtain ⟨-, -, haccepted⟩ := haccepted
  split at haccepted
  . cases haccepted
  next type hdeclaration =>
  refine ⟨type, hdeclaration, ?_⟩
  intro entry hentry
  by_contra hrefused
  have hextra : ((fact.data.map (·.1)).filter (!type.accepts ·)).isEmpty = false := by
    rw [List.isEmpty_eq_false_iff_exists_mem]
    exact ⟨entry.1, List.mem_filter.mpr ⟨List.mem_map_of_mem hentry, by simpa using hrefused⟩⟩
  unfold FactType.requireAccepted at haccepted
  simp [hextra] at haccepted

end FactTable
end ForwardChaining
