import ForwardChaining.Proofs.Store.Calls

/-!
This module contains what is left of an operation that is refused. Nothing is, and no listener is called, with
one exception: unless types are declared, the insertion of a fact whose type is no text has used up an identity
and a stamp before it is refused.
-/

namespace ForwardChaining

/-- The insertion of accepted data under a type that is no text, where no types are declared. -/
def Mutation.Wastes (mutation : Mutation) (table : FactTable) : Prop :=
  table.declared = none ∧ ∃ tag data entries, mutation = .insert tag data
    ∧ (∀ type, tag ≠ .text type) ∧ data.toEntriesOrEmpty = .ok entries

namespace FactTable

open mutate (made replaced)

theorem made_eq_error {α : Type} {change : α → Change} {outcome : FactTable × Except Fault α}
    {table : FactTable} {fault : Fault} (h : made change outcome = (table, .error fault)) :
    table = outcome.1 ∧ outcome.2 = .error fault := by
  obtain ⟨table', _ | _⟩ := outcome <;> cases h
  exact ⟨rfl, rfl⟩

theorem mutate_of_wastes {table : FactTable} {mutation : Mutation} (h : mutation.Wastes table) :
    table.mutate mutation = (table.advance, .error (.invalid [⟨["fact_type"], .notText⟩])) := by
  obtain ⟨hdeclared, tag, data, entries, rfl, htag, hdata⟩ := h
  have hinsert : table.insert tag entries
      = (table.advance, .error (.invalid [⟨["fact_type"], .notText⟩])) := by
    unfold insert
    rw [requireDeclared, hdeclared]
    cases tag with
    | text type => exact absurd rfl (htag type)
    | _ => rfl
  simp only [mutate, hdata, hinsert, made]

theorem insert_of_error {table : FactTable} {tag : Value} {data : Entries} {fault : Fault}
    (h : (table.insert tag data).2 = .error fault)
    (hspared : table.declared = none → ∃ type, tag = .text type) : (table.insert tag data).1 = table := by
  cases haccepted : table.requireDeclared tag data with
  | error own => simp only [insert, haccepted]
  | ok =>
    cases tag with
    | text type =>
      simp only [insert, haccepted] at h
      cases h
    | _ =>
      have hdeclared : table.declared.isNone = false := by
        rw [Bool.eq_false_iff, ne_eq, Option.isNone_iff_eq_none]
        rintro hnone
        obtain ⟨type, htype⟩ := hspared hnone
        cases htype
      simp only [insert, haccepted, hdeclared, Bool.false_eq_true, if_false]

theorem update_of_error {table : FactTable} {ref : Value} {data : Entries} {fault : Fault}
    (h : (table.update ref data).2 = .error fault) : (table.update ref data).1 = table := by
  unfold update at h ⊢
  split at h
  . rfl
  . split at h
    . rfl
    . cases h

theorem retract_of_error {table : FactTable} {ref : Value} {fault : Fault}
    (h : (table.retract ref).2 = .error fault) : (table.retract ref).1 = table := by
  unfold retract at h ⊢
  split at h
  . rfl
  . cases h

/-- What is refused leaves the table as it was, unless it uses up an identity. -/
theorem mutate_of_error {table table' : FactTable} {mutation : Mutation} {fault : Fault}
    (h : table.mutate mutation = (table', .error fault)) (hspared : ¬ mutation.Wastes table) :
    table' = table := by
  have hupdate : ∀ {ref : Value} {entries : Entries},
      made replaced (table.update ref entries) = (table', .error fault) → table' = table := by
    intro ref entries hmade
    obtain ⟨htable, hrefused⟩ := made_eq_error hmade
    rw [htable, update_of_error hrefused]
  cases mutation with
  | insert tag data =>
    simp only [mutate] at h
    split at h
    . cases h
      rfl
    . next entries hdata =>
      obtain ⟨htable, hrefused⟩ := made_eq_error h
      rw [htable]
      refine insert_of_error hrefused fun hdeclared => Classical.byContradiction fun htag => ?_
      exact hspared ⟨hdeclared, tag, data, entries, rfl, not_exists.mp htag, hdata⟩
  | update ref data =>
    simp only [mutate] at h
    split at h
    . cases h
      rfl
    . cases h
      rfl
    . exact hupdate h
  | modify ref changes =>
    simp only [mutate] at h
    split at h
    . cases h
      rfl
    . cases h
      rfl
    . exact hupdate h
  | retract ref =>
    obtain ⟨htable, hrefused⟩ := made_eq_error h
    rw [htable, retract_of_error hrefused]
  | enter | leave | beginCycle => cases h

end FactTable

namespace Store

variable {σ : Type} {store : Store (List Call × σ)}

theorem fault_of_publish (hwatched : store.Watched) {α : Type} {change : Change} {result : α}
    {fault : Fault} (h : (store.publish change result).2 = .error fault) :
    ∃ call ∈ (store.publish change result).1.calls.drop store.calls.length, call.fault = some fault := by
  by_cases hdepth : store.depth = 0
  . obtain ⟨listeners, hlisteners⟩ := hwatched
    obtain ⟨calls, hadds, -, hfault⟩ := deliver_watched change store.world 0 listeners
    have hemit : store.emit change
        = ({ store with world := (deliver change store.world store.listeners).1 },
          (deliver change store.world store.listeners).2) := by
      rw [emit, if_pos hdepth]
    rw [hlisteners, hfault] at hemit
    have hcalls : (store.publish change result).1.calls = store.calls ++ calls := by
      rw [fst_publish, hemit]
      exact hadds
    rw [publish, hemit] at h
    rw [hcalls, List.drop_left]
    cases hfound : calls.findSome? (·.fault) with
    | none =>
      rw [hfound] at h
      cases h
    | some own =>
      rw [hfound] at h
      cases h
      exact List.exists_of_findSome?_eq_some hfound
  . rw [publish_deferred hdepth] at h
    cases h

/-- The operation fails, although none of the listeners fails that it calls. -/
def Refuses (store : Store (List Call × σ)) (mutation : Mutation) : Prop :=
  (∃ fault, (store.operate mutation).2 = .error fault)
    ∧ ∀ call ∈ (store.operate mutation).1.calls.drop store.calls.length, call.fault = none

theorem mutate_of_refuses (hwatched : store.Watched) {mutation : Mutation}
    (hedge : ¬ mutation.IsEdge) (h : store.Refuses mutation) : ∃ table fault,
      store.table.mutate mutation = (table, .error fault)
        ∧ (store.operate mutation).1 = { store with table } := by
  obtain ⟨⟨fault, hfault⟩, hcalls⟩ := h
  rw [operate_eq store hedge] at hfault hcalls ⊢
  cases houtcome : store.table.mutate mutation with
  | mk table outcome =>
    rw [houtcome] at hfault hcalls
    match outcome with
    | .ok (some change) =>
      have hmoved : ({ store with table } : Store _).Watched := hwatched
      obtain ⟨call, hcall, hsome⟩ := fault_of_publish hmoved hfault
      rw [hcalls call hcall] at hsome
      cases hsome
    | .ok none => cases hfault
    | .error own => exact ⟨table, own, rfl, rfl⟩

/-- In a deferred block no listener is called, so that what fails is refused, and leaves the store as it was. -/
theorem operate_deferred {σ : Type} {store : Store σ} (hdepth : store.depth ≠ 0) {mutation : Mutation}
    (hedge : ¬ mutation.IsEdge) (hspared : ¬ mutation.Wastes store.table) :
    (∃ fault, store.operate mutation = (store, .error fault))
      ∨ ∃ store' answer, store'.depth = store.depth ∧ store.operate mutation = (store', .ok answer) := by
  rw [operate_eq store hedge]
  cases houtcome : store.table.mutate mutation with
  | mk table outcome =>
    match outcome with
    | .error fault =>
      rw [FactTable.mutate_of_error houtcome hspared]
      exact .inl ⟨fault, rfl⟩
    | .ok none => exact .inr ⟨{ store with table }, .nothing, rfl, rfl⟩
    | .ok (some change) =>
      have hmoved : ({ store with table } : Store σ).depth ≠ 0 := hdepth
      exact .inr ⟨{ store with table, pending := store.pending ++ [change] }, change.answer, rfl,
        publish_deferred hmoved change change.answer⟩

/--
Whatever was done with the store before: an operation that is refused leaves the whole store as it was, and no
listener hears of it. Only an insertion under a type that is no text, where no types are declared, uses up an
identity and a stamp.
-/
theorem unchanged_of_refuses (declared : Option (List FactType)) (world : σ) (uses : List (Use σ))
    {mutation : Mutation} (hedge : ¬ mutation.IsEdge)
    (h : ((fresh declared world).useAll uses).Refuses mutation) :
    (¬ mutation.Wastes ((fresh declared world).useAll uses).table →
      (((fresh declared world).useAll uses).operate mutation).1 = (fresh declared world).useAll uses)
    ∧ (mutation.Wastes ((fresh declared world).useAll uses).table →
      (((fresh declared world).useAll uses).operate mutation).1
        = { (fresh declared world).useAll uses with
          table := ((fresh declared world).useAll uses).table.advance }) := by
  obtain ⟨table, fault, hmutate, hstore⟩ :=
    mutate_of_refuses (watched_useAll declared world uses) hedge h
  rw [hstore]
  refine ⟨fun hspared => ?_, fun hwastes => ?_⟩
  . rw [FactTable.mutate_of_error hmutate hspared]
  . rw [FactTable.mutate_of_wastes hwastes] at hmutate
    cases hmutate
    rfl

/-- In an open block, a fact is queued for a listener that will fail. -/
def queuedUses : List (Use Unit) :=
  [.subscribe refusing, .mutate .enter, .mutate (.insert (.text "note") .null)]

/-- The number is no data for the fact: the fact and its place in the queue stay. -/
theorem unchanged_of_refuses_queued :
    ((fresh none ()).useAll queuedUses).Refuses (.update (.int 1) (.int 5))
    ∧ (((fresh none ()).useAll queuedUses).operate (.update (.int 1) (.int 5))).1
      = (fresh none ()).useAll queuedUses := by
  have hrefuses : ((fresh none ()).useAll queuedUses).Refuses (.update (.int 1) (.int 5)) :=
    ⟨⟨.notIterable "int", by rfl⟩, List.forall_mem_nil _⟩
  refine ⟨hrefuses, (unchanged_of_refuses none () queuedUses id hrefuses).1 ?_⟩
  rintro ⟨-, tag, data, entries, heq, -⟩
  cases heq

/-- A type that is a number: the insertion is refused, and the next fact has the second identity. -/
theorem refused_insert_counts :
    ((fresh none ()).operate (.insert (.int 5) .null)).2
      = .error (.invalid [⟨["fact_type"], .notText⟩])
    ∧ (((fresh none ()).operate (.insert (.int 5) .null)).1.operate (.insert (.text "note") .null)).2
      = .ok (.identity 2)
    ∧ ((fresh none ()).operate (.insert (.text "note") .null)).2 = .ok (.identity 1) :=
  ⟨by rfl, by rfl, by rfl⟩

end Store
end ForwardChaining
