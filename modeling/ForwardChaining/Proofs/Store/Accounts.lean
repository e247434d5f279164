import ForwardChaining.Proofs.Past
import ForwardChaining.Proofs.Store.Calls
import ForwardChaining.Proofs.Store.Filing
import Mathlib.Data.List.Induction

/-!
This module contains how the facts of a store follow from all that was done with it: which identities are
live and which are stale, how often a fact was updated, and that identities and stamps are handed out in
ascending order. An operation has changed the store if it has made a change, also if a listener then fails.
-/

namespace ForwardChaining

/-- What is noted of a use of a store: who listened, the change that it made, and what came back. -/
structure Note (σ : Type) where
  use : Use σ
  listeners : List (Listener σ)
  change : Option Change
  answer : Except Fault Mutation.Answer

namespace Note

variable {σ : Type}

/-- The identity of the fact that was inserted. -/
def inserted (note : Note σ) : Option Int :=
  match note.change with
  | some (.inserted fact) => some fact.id
  | _ => none

/-- The identity of the fact that was updated. -/
def updated (note : Note σ) : Option Int :=
  match note.change with
  | some (.updated fact _) => some fact.id
  | _ => none

/-- The identity of the fact that was retracted. -/
def retracted (note : Note σ) : Option Int :=
  match note.change with
  | some (.retracted fact) => some fact.id
  | _ => none

/-- The stamp that a new snapshot has got. -/
def stamp (note : Note σ) : Option Int :=
  note.change.bind fun change => change.brings.map (·.recency)

/-- A cycle has begun. -/
def Begins (note : Note σ) : Prop :=
  note.use = .mutate .beginCycle

/-- The operation made the change and returned it, unless somebody who listened has failed on it. -/
structure Honest (note : Note σ) : Prop where
  made : ∀ change, note.change = some change →
    ∃ mutation, note.use = .mutate mutation ∧ change.MadeBy mutation
  told : match note.answer with
    | .ok answer => answer = note.change.elim .nothing Change.answer
    | .error fault => ∀ change, note.change = some change →
      ∃ listener ∈ note.listeners, ∃ world, (listener change world).2 = some fault

theorem inserted_eq_some {note : Note σ} {id : Int} :
    note.inserted = some id ↔ ∃ fact, note.change = some (.inserted fact) ∧ fact.id = id := by
  unfold inserted
  split
  . next fact heq => simp [heq]
  . next hnone => simpa using fun fact hchange => absurd hchange (hnone fact)

theorem updated_eq_some {note : Note σ} {id : Int} : note.updated = some id
    ↔ ∃ fact previous, note.change = some (.updated fact previous) ∧ fact.id = id := by
  unfold updated
  split
  . next fact previous heq => simp [heq]
  . next hnone => simpa using fun fact previous hchange => absurd hchange (hnone fact previous)

end Note

namespace Store

variable {σ : Type}

/-- The store after a use, and what comes back. -/
def respond (store : Store σ) : Use σ → Store σ × Except Fault Mutation.Answer
  | .subscribe listener => (store.subscribe listener, .ok .nothing)
  | .mutate mutation => store.operate mutation
  | .exit own => ended (store.exit own)

/-- What is noted of a use. -/
def note (store : Store σ) (use : Use σ) : Note σ where
  use := use
  listeners := store.listeners
  change := (store.table.used use).2
  answer := (store.respond use).2

/-- The store after some uses, and what is noted of them. -/
def respondAll (store : Store σ) : List (Use σ) → Store σ × List (Note σ)
  | [] => (store, [])
  | use :: uses =>
    let (last, notes) := respondAll (store.respond use).1 uses
    (last, store.note use :: notes)

theorem respondAll_snoc (store : Store σ) (uses : List (Use σ)) (use : Use σ) :
    store.respondAll (uses ++ [use]) = (((store.respondAll uses).1.respond use).1,
      (store.respondAll uses).2 ++ [(store.respondAll uses).1.note use]) := by
  induction uses generalizing store with
  | nil => rfl
  | cons first uses ih =>
    rw [List.cons_append, respondAll, ih]
    rfl

/-! ### What comes back -/

/-- All that can come of a use: an operation on the facts, or the table stays. -/
inductive Responds (store : Store σ) : Use σ → Store σ × Except Fault Mutation.Answer → Prop where
  | apart {use : Use σ} {outcome : Store σ × Except Fault Mutation.Answer}
      (hused : store.table.used use = (store.table, none)) (hbegins : use ≠ .mutate .beginCycle)
      (htable : outcome.1.table = store.table)
      (hanswer : ∀ answer, outcome.2 = .ok answer → answer = .nothing) :
      Responds store use outcome
  | carried (mutation : Mutation) :
      Responds store (.mutate mutation) (store.carryOut (store.table.mutate mutation))

theorem responds_ended {store : Store σ} {use : Use σ} {outcome : Store σ × Option Fault}
    (hused : store.table.used use = (store.table, none)) (hbegins : use ≠ .mutate .beginCycle)
    (htable : outcome.1.table = store.table) : store.Responds use (ended outcome) := by
  obtain ⟨last, _ | fault⟩ := outcome
  . exact .apart hused hbegins htable fun answer h => (Except.ok.inj h).symm
  . exact .apart hused hbegins htable nofun

theorem responds_respond (store : Store σ) (use : Use σ) : store.Responds use (store.respond use) := by
  cases use with
  | subscribe listener => exact .apart rfl nofun rfl fun answer h => (Except.ok.inj h).symm
  | exit own => exact responds_ended rfl nofun (frame_leave store).1
  | mutate mutation =>
    by_cases hedge : mutation.IsEdge
    . cases mutation with
      | enter => exact .apart rfl nofun rfl fun answer h => (Except.ok.inj h).symm
      | leave => exact responds_ended rfl nofun (frame_leave store).1
      | _ => cases hedge
    . simp only [respond]
      rw [operate_eq store hedge]
      exact .carried mutation

theorem table_carryOut (store : Store σ) (outcome : FactTable × Except Fault (Option Change)) :
    (store.carryOut outcome).1.table = outcome.1 := by
  match outcome with
  | (table, .ok (some change)) => exact table_publish _ change _
  | (table, .ok none) => rfl
  | (table, .error fault) => rfl

theorem exists_of_deliver {change : Change} {world : σ} {listeners : List (Listener σ)} {fault : Fault}
    (h : (deliver change world listeners).2 = some fault) :
    ∃ listener ∈ listeners, ∃ world, (listener change world).2 = some fault := by
  induction listeners generalizing world with
  | nil => cases h
  | cons listener listeners ih =>
    simp only [deliver] at h
    split at h
    . next heq => exact ⟨listener, List.mem_cons_self, world, by rw [heq]; exact h⟩
    . next next heq =>
      obtain ⟨other, hother, hfails⟩ := ih h
      exact ⟨other, List.mem_cons_of_mem _ hother, hfails⟩

/-- What has been made is returned, unless somebody who listens fails on it. -/
theorem answer_publish {α : Type} (store : Store σ) (change : Change) (result : α) :
    (store.publish change result).2 = .ok result
      ∨ ∃ fault, (store.publish change result).2 = .error fault
        ∧ ∃ listener ∈ store.listeners, ∃ world, (listener change world).2 = some fault := by
  unfold publish
  split
  . exact .inl rfl
  . next fault heq =>
    refine .inr ⟨fault, rfl, ?_⟩
    unfold emit at heq
    split at heq
    . exact exists_of_deliver (congrArg Prod.snd heq)
    . cases heq

theorem honest_note (store : Store σ) (use : Use σ) : (store.note use).Honest := by
  have hresponds := store.responds_respond use
  constructor
  . intro change hchange
    change (store.table.used use).2 = some change at hchange
    generalize store.respond use = outcome at hresponds
    cases hresponds with
    | apart hused =>
      rw [hused] at hchange
      cases hchange
    | carried mutation =>
      exact ⟨mutation, rfl, (store.table.moves_mutate mutation).madeBy hchange⟩
  . unfold note
    dsimp only
    generalize store.respond use = outcome at hresponds ⊢
    cases hresponds with
    | apart hused hbegins htable hanswer =>
      rw [hused]
      split
      . next answer heq => exact hanswer answer heq
      . exact nofun
    | carried mutation =>
      simp only [FactTable.used, FactTable.makes]
      match store.table.mutate mutation with
      -- without a change nobody was called
      | (table, .ok none) => exact rfl
      | (table, .error fault) => exact nofun
      | (table, .ok (some change)) =>
        simp only [carryOut, Except.toOption, Option.join_some]
        rcases answer_publish { store with table } change change.answer with heq | ⟨fault, heq, hfails⟩
        . rw [heq]
          rfl
        . rw [heq]
          rintro _ ⟨⟩
          exact hfails

theorem table_respond (store : Store σ) (use : Use σ) :
    (store.respond use).1.table = (store.table.used use).1 := by
  have hresponds := store.responds_respond use
  generalize store.respond use = outcome at hresponds ⊢
  cases hresponds with
  | apart hused hbegins htable => rw [htable, hused]
  | carried mutation => exact table_carryOut store _

end Store

/-! ### The books -/

namespace FactTable

variable {σ : Type}

/-- What is in the table follows from what is noted of the past. -/
structure Booked (table : FactTable) (notes : List (Note σ)) : Prop where
  live : ∀ id, (table.find? id).isSome ↔ Since (·.inserted = some id) (·.retracted = some id) notes
  stale : ∀ id, id ∈ table.retracted ↔ Since (·.retracted = some id) Note.Begins notes
  versions : ∀ id fact, table.find? id = some fact →
    fact.version = 1 + notes.countP (·.updated = some id)
  ids : (notes.filterMap (·.inserted)).Pairwise (· < ·)
  stamps : (notes.filterMap (·.stamp)).Pairwise (· < ·)
  below : ∀ note ∈ notes, ∀ change, note.change = some change → change.fact.id < table.nextId
  past : ∀ stamp ∈ notes.filterMap (·.stamp), stamp ≤ table.clock

theorem booked_nil (declared : Option (List FactType)) :
    ({ declared } : FactTable).Booked ([] : List (Note σ)) := by
  refine ⟨?_, ?_, nofun, .nil, .nil, by simp, by simp⟩
  . intro id
    exact iff_of_false Bool.false_ne_true not_since_nil
  . intro id
    exact iff_of_false List.not_mem_nil not_since_nil

section Booked

variable {table : FactTable} {notes : List (Note σ)} (h : table.Booked notes) {note : Note σ}

include h

theorem Booked.below_snoc {nextId : Int} (hnext : table.nextId ≤ nextId)
    (hlast : ∀ change, note.change = some change → change.fact.id < nextId) :
    ∀ other ∈ notes ++ [note], ∀ change, other.change = some change → change.fact.id < nextId := by
  rw [List.forall_mem_append, List.forall_mem_singleton]
  refine ⟨?_, hlast⟩
  intro earlier hearlier change hchange
  exact Int.lt_of_lt_of_le (h.below earlier hearlier change hchange) hnext

theorem Booked.stamps_snoc (hstamp : note.stamp = some (table.clock + 1)) :
    ((notes ++ [note]).filterMap (·.stamp)).Pairwise (· < ·)
      ∧ ∀ stamp ∈ (notes ++ [note]).filterMap (·.stamp), stamp ≤ table.clock + 1 := by
  have hstamps : (notes ++ [note]).filterMap (·.stamp)
      = notes.filterMap (·.stamp) ++ [table.clock + 1] := by
    simp [List.filterMap_append, hstamp]
  rw [hstamps, List.pairwise_append, List.forall_mem_append, List.forall_mem_singleton]
  refine ⟨⟨h.stamps, List.pairwise_singleton _ _, ?_⟩, ?_, Int.le_refl _⟩
  . intro stamp hmem last hlast
    rw [List.mem_singleton.mp hlast]
    exact Int.lt_add_one_of_le (h.past stamp hmem)
  . intro stamp hmem
    exact Int.le_trans (h.past stamp hmem) (Int.le_add_one (Int.le_refl _))

theorem Booked.countP_updated {id : Int} (hid : table.nextId ≤ id) :
    notes.countP (·.updated = some id) = 0 := by
  rw [List.countP_eq_zero]
  intro earlier hearlier hupdated
  obtain ⟨fact, previous, hchange, rfl⟩ := Note.updated_eq_some.mp (of_decide_eq_true hupdated)
  have hbelow := h.below earlier hearlier _ hchange
  change fact.id < table.nextId at hbelow
  omega

/-- What was stale remains so, unless a cycle begins. -/
theorem Booked.stale_snoc (hretracted : note.retracted = none) (hbegins : ¬ note.Begins) (id : Int) :
    id ∈ table.retracted ↔ Since (·.retracted = some id) Note.Begins (notes ++ [note]) := by
  rw [since_snoc, ← h.stale, hretracted]
  simp [hbegins]

theorem Booked.unchanged {table' : FactTable} (hchange : note.change = none)
    (hfind : table'.find? = table.find?)
    (hstale : ∀ id, id ∈ table'.retracted ↔ Since (·.retracted = some id) Note.Begins (notes ++ [note]))
    (hnext : table.nextId ≤ table'.nextId) (hclock : table.clock ≤ table'.clock) :
    table'.Booked (notes ++ [note]) := by
  have hinserted : note.inserted = none := by rw [Note.inserted, hchange]
  have hupdated : note.updated = none := by rw [Note.updated, hchange]
  have hretracted : note.retracted = none := by rw [Note.retracted, hchange]
  have hstamp : note.stamp = none := by rw [Note.stamp, hchange]; rfl
  refine ⟨?_, hstale, ?_, ?_, ?_, ?_, ?_⟩
  . intro id
    rw [since_snoc, ← h.live, hfind, hinserted, hretracted]
    simp
  . intro id fact hfound
    rw [hfind] at hfound
    simp [List.countP_append, hupdated, h.versions id fact hfound]
  . simpa [hinserted] using h.ids
  . simpa [hstamp] using h.stamps
  . exact h.below_snoc hnext (by simp [hchange])
  . intro stamp hmem
    have hearlier : stamp ∈ notes.filterMap (·.stamp) := by simpa [hstamp] using hmem
    exact Int.le_trans (h.past stamp hearlier) hclock

theorem Booked.inserted {table' : FactTable} {fact : Fact} (hchange : note.change = some (.inserted fact))
    (hbegins : ¬ note.Begins) (hfind : table'.find? = (Change.inserted fact).amend table.find?)
    (hretracted : table'.retracted = table.retracted) (hid : fact.id = table.nextId)
    (hnext : table'.nextId = table.nextId + 1) (hversion : fact.version = 1)
    (hrecency : fact.recency = table.clock + 1) (hclock : table'.clock = table.clock + 1) :
    table'.Booked (notes ++ [note]) := by
  have hinserted : note.inserted = some fact.id := by rw [Note.inserted, hchange]
  have hupdated : note.updated = none := by rw [Note.updated, hchange]
  have hgone : note.retracted = none := by rw [Note.retracted, hchange]
  have hstamp : note.stamp = some (table.clock + 1) := by rw [Note.stamp, hchange, ← hrecency]; rfl
  obtain ⟨hstamps, hpast⟩ := h.stamps_snoc hstamp
  have hlookup : ∀ id, table'.find? id = if id = fact.id then some fact else table.find? id := by
    intro id
    rw [hfind, Change.amend, Function.update_apply]
  refine ⟨?_, ?_, ?_, ?_, hstamps, ?_, hclock ▸ hpast⟩
  . intro id
    rw [since_snoc, ← h.live, hlookup, hinserted, hgone]
    by_cases heq : id = fact.id
    . simp [heq]
    . simp [heq, Ne.symm heq]
  . rw [hretracted]
    exact h.stale_snoc hgone hbegins
  . intro id other hfound
    rw [hlookup] at hfound
    rw [List.countP_append]
    split at hfound
    . next heq =>
      cases hfound
      -- the identity is new, so it was never updated
      rw [h.countP_updated (by omega), hversion]
      simp [hupdated]
    . simp [hupdated, h.versions id other hfound]
  . have hids : (notes ++ [note]).filterMap (·.inserted) = notes.filterMap (·.inserted) ++ [fact.id] := by
      simp [List.filterMap_append, hinserted]
    rw [hids, List.pairwise_append]
    refine ⟨h.ids, List.pairwise_singleton _ _, ?_⟩
    intro id hmem last hlast
    rw [List.mem_singleton.mp hlast, hid]
    obtain ⟨earlier, hearlier, hsome⟩ := List.mem_filterMap.mp hmem
    obtain ⟨old, hold, rfl⟩ := Note.inserted_eq_some.mp hsome
    exact h.below earlier hearlier _ hold
  . apply h.below_snoc (by omega)
    intro change hmade
    cases hchange.symm.trans hmade
    change fact.id < table'.nextId
    omega

theorem Booked.updated {table' : FactTable} {fact previous : Fact}
    (hchange : note.change = some (.updated fact previous)) (hbegins : ¬ note.Begins)
    (hfind : table'.find? = (Change.updated fact previous).amend table.find?)
    (hretracted : table'.retracted = table.retracted) (hprevious : table.find? fact.id = some previous)
    (hbelow : fact.id < table.nextId) (hnext : table'.nextId = table.nextId)
    (hversion : fact.version = previous.version + 1)
    (hrecency : fact.recency = table.clock + 1) (hclock : table'.clock = table.clock + 1) :
    table'.Booked (notes ++ [note]) := by
  have hinserted : note.inserted = none := by rw [Note.inserted, hchange]
  have hupdated : note.updated = some fact.id := by rw [Note.updated, hchange]
  have hgone : note.retracted = none := by rw [Note.retracted, hchange]
  have hstamp : note.stamp = some (table.clock + 1) := by rw [Note.stamp, hchange, ← hrecency]; rfl
  obtain ⟨hstamps, hpast⟩ := h.stamps_snoc hstamp
  have hlookup : ∀ id, table'.find? id = if id = fact.id then some fact else table.find? id := by
    intro id
    rw [hfind, Change.amend, Function.update_apply]
  refine ⟨?_, ?_, ?_, ?_, hstamps, ?_, hclock ▸ hpast⟩
  . intro id
    rw [since_snoc, ← h.live, hlookup, hinserted, hgone]
    by_cases heq : id = fact.id
    . simp [heq, hprevious]
    . simp [heq]
  . rw [hretracted]
    exact h.stale_snoc hgone hbegins
  . intro id other hfound
    rw [hlookup] at hfound
    rw [List.countP_append]
    split at hfound
    . next heq =>
      cases hfound
      -- one update more than the snapshot that was replaced
      have hcount := h.versions fact.id previous hprevious
      simp only [heq, hupdated, List.countP_singleton, decide_true, if_true]
      omega
    . next hne => simp [hupdated, Ne.symm hne, h.versions id other hfound]
  . simpa [hinserted] using h.ids
  . apply h.below_snoc (by omega)
    intro change hmade
    cases hchange.symm.trans hmade
    change fact.id < table'.nextId
    omega

theorem Booked.retracted {table' : FactTable} {fact : Fact} (hchange : note.change = some (.retracted fact))
    (hfind : table'.find? = (Change.retracted fact).amend table.find?)
    (hretracted : table'.retracted = fact.id :: table.retracted) (hbegins : ¬ note.Begins)
    (hbelow : fact.id < table.nextId) (hnext : table'.nextId = table.nextId)
    (hclock : table'.clock = table.clock) : table'.Booked (notes ++ [note]) := by
  have hinserted : note.inserted = none := by rw [Note.inserted, hchange]
  have hupdated : note.updated = none := by rw [Note.updated, hchange]
  have hgone : note.retracted = some fact.id := by rw [Note.retracted, hchange]
  have hstamp : note.stamp = none := by rw [Note.stamp, hchange]; rfl
  have hlookup : ∀ id, table'.find? id = if id = fact.id then none else table.find? id := by
    intro id
    rw [hfind, Change.amend, Function.update_apply]
  refine ⟨?_, ?_, ?_, ?_, ?_, ?_, ?_⟩
  . intro id
    rw [since_snoc, ← h.live, hlookup, hinserted, hgone]
    by_cases heq : id = fact.id
    . simp [heq]
    . simp [heq, Ne.symm heq]
  . intro id
    rw [since_snoc, ← h.stale, hretracted, hgone, List.mem_cons]
    simp [hbegins, eq_comm]
  . intro id other hfound
    rw [hlookup] at hfound
    split at hfound
    . cases hfound
    . simp [List.countP_append, hupdated, h.versions id other hfound]
  . simpa [hinserted] using h.ids
  . simpa [hstamp] using h.stamps
  . apply h.below_snoc (by omega)
    intro change hmade
    cases hchange.symm.trans hmade
    change fact.id < table'.nextId
    omega
  . rw [hclock]
    simpa [hstamp] using h.past

theorem Booked.of_moves (hwell : table.WellFormed) {mutation : Mutation}
    {outcome : FactTable × Except Fault (Option Change)} (hmoves : table.Moves mutation outcome)
    (huse : note.use = .mutate mutation) (hchange : note.change = outcome.2.toOption.join) :
    outcome.1.Booked (notes ++ [note]) := by
  have hfind := hmoves.find? hwell
  have hapart : mutation ≠ .beginCycle → ¬ note.Begins := by
    intro hmutation hbegins
    cases huse.symm.trans hbegins
    exact hmutation rfl
  cases hmoves with
  | refused hmutation | edge hmutation =>
    have hgone : note.retracted = none := by rw [Note.retracted, hchange]; rfl
    exact h.unchanged hchange rfl (h.stale_snoc hgone (hapart hmutation)) (Int.le_refl _) (Int.le_refl _)
  | wasted =>
    have hgone : note.retracted = none := by rw [Note.retracted, hchange]; rfl
    refine h.unchanged hchange rfl (h.stale_snoc hgone (hapart (by simp))) ?_ ?_
    . simp only [advance]
      omega
    . simp only [advance]
      omega
  | inserted data fact hid hversion hrecency =>
    exact h.inserted hchange (hapart (by simp)) hfind rfl hid rfl hversion hrecency rfl
  | updated fact previous hmade hprevious hid htype hversion hrecency =>
    have hfound : table.find? fact.id = some previous :=
      (find?_eq_some_iff hwell).mpr ⟨hprevious, hid.symm⟩
    have hbelow : fact.id < table.nextId := hid ▸ hwell.below previous hprevious
    have hmutation : mutation ≠ .beginCycle := by
      rintro rfl
      exact hmade
    exact h.updated hchange (hapart hmutation) hfind rfl hfound hbelow rfl hversion hrecency rfl
  | retracted ref fact href hfact =>
    exact h.retracted hchange hfind rfl (hapart (by simp)) (hwell.below fact hfact) rfl rfl
  | begun =>
    have hgone : note.retracted = none := by rw [Note.retracted, hchange]; rfl
    refine h.unchanged hchange rfl ?_ (Int.le_refl _) (Int.le_refl _)
    intro id
    rw [since_snoc, hgone]
    have hbegins : note.Begins := huse
    simp [beginCycle, hbegins]

end Booked
end FactTable

namespace Store

variable {σ : Type}

/-- The table is in order, and follows from what is noted of the past. -/
structure Kept (declared : Option (List FactType)) (table : FactTable) (notes : List (Note σ)) : Prop where
  declared : table.declared = declared
  tidy : table.Tidy
  booked : table.Booked notes
  honest : ∀ note ∈ notes, note.Honest

theorem kept_empty (declared : Option (List FactType)) : Kept declared { declared } ([] : List (Note σ)) :=
  ⟨rfl, FactTable.tidy_empty declared, FactTable.booked_nil declared, by simp⟩

theorem Kept.respond {declared : Option (List FactType)} {store : Store σ} {notes : List (Note σ)}
    (h : Kept declared store.table notes) (use : Use σ) :
    Kept declared (store.respond use).1.table (notes ++ [store.note use]) := by
  have hhonest : ∀ note ∈ notes ++ [store.note use], note.Honest := by
    rw [List.forall_mem_append, List.forall_mem_singleton]
    exact ⟨h.honest, store.honest_note use⟩
  have hresponds := store.responds_respond use
  rw [table_respond]
  generalize store.respond use = outcome at hresponds
  cases hresponds with
  | apart hused hbegins =>
    have hchange : (store.note use).change = none := congrArg Prod.snd hused
    have hretracted : (store.note use).retracted = none := by rw [Note.retracted, hchange]
    rw [hused]
    exact ⟨h.declared, h.tidy, h.booked.unchanged hchange rfl (h.booked.stale_snoc hretracted hbegins)
      (Int.le_refl _) (Int.le_refl _), hhonest⟩
  | carried mutation =>
    have hmoves := store.table.moves_mutate mutation
    exact ⟨(store.table.declared_mutate mutation).trans h.declared, hmoves.tidy h.tidy,
      h.booked.of_moves h.tidy.wellFormed hmoves rfl rfl, hhonest⟩

/-- What the queries of a store answer, by what was done with the store. -/
structure Accounts (declared : Option (List FactType)) (store : Store σ) (past : List (Note σ)) :
    Prop where
  /-- A fact is live if it was inserted, and has not been retracted since. -/
  live : ∀ id, (store.table.find? id).isSome
    ↔ Since (·.inserted = some id) (·.retracted = some id) past
  /-- No identity is used again. -/
  ids : (past.filterMap (·.inserted)).Pairwise (· < ·)
  versions : ∀ id fact, store.table.find? id = some fact →
    fact.version = 1 + past.countP (·.updated = some id)
  stamps : (past.filterMap (·.stamp)).Pairwise (· < ·)
  facts : ∀ fact, fact ∈ store.table.live ↔ store.table.find? fact.id = some fact
  ascending : store.table.live.Pairwise (·.id < ·.id)
  scan : ∀ type, store.table.scan (.text type) = .ok (FactTable.ofType type store.table.live)
  get : ∀ id fact, store.table.find? id = some fact → store.table.get (.int id) = .ok fact
  stale : ∀ id, store.table.find? id = none →
    (store.table.get (.int id) = .error (.staleReference (.int id))
      ↔ Since (·.retracted = some id) Note.Begins past)
  missing : ∀ id, store.table.find? id = none →
    (store.table.get (.int id) = .error (.noSuchFact (.int id))
      ↔ ¬ Since (·.retracted = some id) Note.Begins past)
  declared : ∀ types, declared = some types → ∀ fact ∈ store.table.live,
    ∃ type, FactTable.declaration? types (.text fact.type) = some type
      ∧ ∀ entry ∈ fact.data, type.accepts entry.1
  /-- A change is told to who has made it, unless a listener has failed on it. -/
  honest : ∀ note ∈ past, note.Honest

/-- Whatever is done with a store, and whoever listens to it, its facts are accounted for. -/
theorem accounts_respondAll (declared : Option (List FactType)) (world : σ) (uses : List (Use σ)) :
    Accounts declared (({ table := { declared }, world } : Store σ).respondAll uses).1
      (({ table := { declared }, world } : Store σ).respondAll uses).2 := by
  -- by the last use: what it does to the table, and what is noted of it
  have hkept : Kept declared (({ table := { declared }, world } : Store σ).respondAll uses).1.table
      (({ table := { declared }, world } : Store σ).respondAll uses).2 := by
    induction uses using List.reverseRecOn with
    | nil => exact kept_empty declared
    | append_singleton uses use ih =>
      rw [respondAll_snoc]
      exact ih.respond use
  generalize ({ table := { declared }, world } : Store σ).respondAll uses = outcome at hkept ⊢
  have hget := outcome.1.table.get_int
  exact {
    live := hkept.booked.live
    ids := hkept.booked.ids
    versions := hkept.booked.versions
    stamps := hkept.booked.stamps
    facts := by
      intro fact
      rw [FactTable.find?_eq_some_iff hkept.tidy.wellFormed]
      simp
    ascending := List.pairwise_map.mp hkept.tidy.ascending
    scan := hkept.tidy.scan_eq
    get := by
      intro id fact hfound
      rw [hget, hfound]
    stale := by
      intro id hnone
      rw [hget, hnone, ← hkept.booked.stale]
      simp
    missing := by
      intro id hnone
      rw [hget, hnone, ← hkept.booked.stale]
      simp
    declared := by
      intro types hdeclared fact hfact
      exact hkept.tidy.declared (hkept.declared.trans hdeclared) hfact
    honest := hkept.honest }

/-- An insertion that a listener fails on. -/
def refusedUses : List (Use Unit) :=
  [.subscribe refusing, .mutate (.insert (.text "item") .null)]

/-- A fact may be live although no insertion has returned its identity: a listener has failed on it. -/
theorem live_unreturned :
    ¬ (((({ world := () } : Store Unit).respondAll refusedUses).1.table.find? 1).isSome
      ↔ Since (·.answer = .ok (.identity 1)) (·.retracted = some 1)
        (({ world := () } : Store Unit).respondAll refusedUses).2) := by
  intro hiff
  obtain ⟨note, hnote, hanswer⟩ := exists_of_since (hiff.mp rfl)
  have hanswers : (({ world := () } : Store Unit).respondAll refusedUses).2.map (·.answer)
      = [.ok .nothing, .error (.sessionState "refused" none)] := rfl
  have hmem := List.mem_map_of_mem (f := Note.answer) hnote
  rw [hanswers, hanswer] at hmem
  simp at hmem

end Store
end ForwardChaining
