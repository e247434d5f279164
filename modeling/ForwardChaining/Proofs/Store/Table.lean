import ForwardChaining.Proofs.Fact.Change
import ForwardChaining.Proofs.Logged
import ForwardChaining.Store.Table
import Mathlib.Data.List.Nodup

/-!
This module contains what the operations on the table of live facts do: each makes one change that can
happen to the live facts, or none, and identities stay distinct.
-/

namespace ForwardChaining

namespace FactTable

/-- Identities are handed out once. -/
structure WellFormed (table : FactTable) : Prop where
  distinct : Distinct table.live
  below : ∀ fact ∈ table.live, fact.id < table.nextId

/-- What an operation that emits a change, or none, does to a table. -/
def Follows (table table' : FactTable) : Option Change → Prop
  | none => table'.live = table.live ∧ table.nextId ≤ table'.nextId ∧ table.clock ≤ table'.clock
  | some (.inserted fact) => fact.id = table.nextId ∧ table'.live = table.live ++ [fact]
    ∧ table'.nextId = table.nextId + 1
    ∧ fact.recency = table.clock + 1 ∧ table'.clock = table.clock + 1
  | some (.updated fact previous) => previous ∈ table.live ∧ fact.id = previous.id
    ∧ fact.type = previous.type ∧ table'.live = replace fact table.live
    ∧ table'.nextId = table.nextId
    ∧ fact.recency = table.clock + 1 ∧ table'.clock = table.clock + 1
  | some (.retracted fact) => fact ∈ table.live ∧ table'.live = without fact.id table.live
    ∧ table'.nextId = table.nextId ∧ table'.clock = table.clock

theorem follows_refl (table : FactTable) : table.Follows table none :=
  ⟨rfl, Int.le_refl _, Int.le_refl _⟩

/-- All stamps are positive, and none is ahead of the clock. -/
structure Stamped (table : FactTable) : Prop where
  clock : 0 ≤ table.clock
  stamps : ∀ fact ∈ table.live, 0 < fact.recency ∧ fact.recency ≤ table.clock

theorem map_id_replace (fact : Fact) (live : List Fact) :
    (replace fact live).map (·.id) = live.map (·.id) := by
  unfold replace
  rw [List.map_map]
  apply List.map_congr_left
  intro old _
  by_cases h : old.id = fact.id <;> simp [h]

theorem replace_perm {fact previous : Fact} {live : List Fact} (h : Distinct live)
    (hprevious : previous ∈ live) (hid : fact.id = previous.id) :
    (without previous.id live ++ [fact]).Perm (replace fact live) := by
  induction live with
  | nil => cases hprevious
  | cons old live ih =>
    rw [Distinct, List.map_cons, List.nodup_cons] at h
    by_cases heq : old.id = previous.id
    . have hothers : Unused previous.id live := by
        intro other hother hsame
        exact h.1 (List.mem_map.mpr ⟨other, hother, hsame.trans heq.symm⟩)
      have hreplace : replace fact live = live := by
        unfold replace
        conv_rhs => rw [← List.map_id live]
        apply List.map_congr_left
        intro other hmem
        simp [hid, hothers other hmem]
      have hfirst : without previous.id (old :: live) = live := by
        rw [without, List.filter_cons_of_neg (by simp [heq])]
        exact without_of_unused hothers
      rw [hfirst, replace, List.map_cons, if_pos (heq.trans hid.symm)]
      change (live ++ [fact]).Perm (fact :: replace fact live)
      rw [hreplace]
      exact List.perm_append_singleton _ _
    . have hmem : previous ∈ live := by
        rcases List.mem_cons.mp hprevious with rfl | hmem
        . exact absurd rfl heq
        . exact hmem
      have hfirst : without previous.id (old :: live) = old :: without previous.id live := by
        simp [without, heq]
      rw [hfirst, replace, List.map_cons, if_neg (hid ▸ heq)]
      exact (ih h.2 hmem).cons old

theorem distinct_of_map_id {live live' : List Fact} (h : Distinct live)
    (heq : live'.map (·.id) = live.map (·.id)) : Distinct live' := by
  unfold Distinct
  rw [heq]
  exact h

section Follows

variable {table table' : FactTable} (h : table.WellFormed)

include h

theorem WellFormed.eq_of_id {fact other : Fact} (hfact : fact ∈ table.live)
    (hother : other ∈ table.live) (hid : other.id = fact.id) : other = fact :=
  List.inj_on_of_nodup_map h.distinct hother hfact hid

theorem WellFormed.unused : Unused table.nextId table.live :=
  fun fact hfact => Int.ne_of_lt (h.below fact hfact)

theorem Follows.wellFormed {change? : Option Change} (hfollows : table.Follows table' change?) :
    table'.WellFormed := by
  match change? with
  | none =>
    obtain ⟨hlive, hnext, -⟩ := hfollows
    refine ⟨hlive ▸ h.distinct, ?_⟩
    intro fact hfact
    have hbelow := h.below fact (hlive ▸ hfact)
    omega
  | some (.inserted fact) =>
    obtain ⟨hid, hlive, hnext, -⟩ := hfollows
    constructor
    . rw [hlive]
      exact distinct_append h.distinct (hid ▸ h.unused)
    . rw [hlive, hnext]
      intro other hother
      rcases List.mem_append.mp hother with hother | hother
      . have hbelow := h.below other hother
        omega
      . rw [List.mem_singleton.mp hother]
        omega
  | some (.updated fact previous) =>
    obtain ⟨hprevious, hid, -, hlive, hnext, -⟩ := hfollows
    constructor
    . rw [hlive]
      exact distinct_of_map_id h.distinct (map_id_replace fact table.live)
    . rw [hlive, hnext]
      intro other hother
      have hmem : other.id ∈ table.live.map (·.id) := by
        rw [← map_id_replace fact]
        exact List.mem_map.mpr ⟨other, hother, rfl⟩
      obtain ⟨old, hold, heq⟩ := List.mem_map.mp hmem
      rw [← heq]
      exact h.below old hold
  | some (.retracted fact) =>
    obtain ⟨-, hlive, hnext, -⟩ := hfollows
    constructor
    . rw [hlive]
      exact distinct_without h.distinct fact.id
    . rw [hlive, hnext]
      intro other hother
      exact h.below other (List.mem_of_mem_filter hother)

theorem Follows.change {change : Change} (hfollows : table.Follows table' (some change)) :
    change.Admissible table.live ∧ (∀ fact ∈ change.takes, fact ∈ table.live)
      ∧ (change.applied table.live).Perm table'.live := by
  cases change with
  | inserted fact =>
    obtain ⟨hid, hlive, -⟩ := hfollows
    refine ⟨?_, by simp [Change.takes], by rw [hlive, Change.applied]⟩
    rw [Change.Admissible, hid]
    exact h.unused
  | updated fact previous =>
    obtain ⟨hprevious, hid, htype, hlive, -⟩ := hfollows
    refine ⟨⟨hid, htype, ?_⟩, ?_, ?_⟩
    . intro other hother heq
      rw [h.eq_of_id hprevious hother heq]
    . intro other hother
      cases hother
      exact hprevious
    . rw [hlive]
      exact replace_perm h.distinct hprevious hid
  | retracted fact =>
    obtain ⟨hfact, hlive, -⟩ := hfollows
    refine ⟨?_, ?_, by rw [hlive, Change.applied]⟩
    . intro other hother heq
      rw [h.eq_of_id hfact hother heq]
    . intro other hother
      cases hother
      exact hfact

end Follows

theorem mem_replace {fact other : Fact} {live : List Fact} (h : other ∈ replace fact live) :
    other = fact ∨ other ∈ live := by
  obtain ⟨old, hold, rfl⟩ := List.mem_map.mp h
  split
  . exact .inl rfl
  . exact .inr hold

theorem Follows.stamped {table table' : FactTable} (h : table.Stamped) {change? : Option Change}
    (hfollows : table.Follows table' change?) : table'.Stamped := by
  have hclock := h.clock
  match change? with
  | none =>
    obtain ⟨hlive, -, hlater⟩ := hfollows
    refine ⟨by omega, ?_⟩
    intro fact hfact
    have hstamp := h.stamps fact (hlive ▸ hfact)
    omega
  | some (.inserted fact) =>
    obtain ⟨-, hlive, -, hrecency, hlater⟩ := hfollows
    refine ⟨by omega, ?_⟩
    rw [hlive, List.forall_mem_append, List.forall_mem_singleton]
    refine ⟨?_, by omega⟩
    intro other hother
    have hstamp := h.stamps other hother
    omega
  | some (.updated fact previous) =>
    obtain ⟨-, -, -, hlive, -, hrecency, hlater⟩ := hfollows
    refine ⟨by omega, ?_⟩
    intro other hother
    rw [hlive] at hother
    rcases mem_replace hother with rfl | hold
    . omega
    . have hstamp := h.stamps other hold
      omega
  | some (.retracted fact) =>
    obtain ⟨-, hlive, -, hsame⟩ := hfollows
    refine ⟨by omega, ?_⟩
    intro other hother
    rw [hlive] at hother
    rw [hsame]
    exact h.stamps other (List.mem_of_mem_filter hother)

/-! ### Operations -/

theorem find?_of_get {table : FactTable} {ref : Value} {fact : Fact} (h : table.get ref = .ok fact) :
    ∃ id, ref.integer? = some id ∧ table.find? id = some fact := by
  unfold get lookup at h
  simp only [doBind_eq_ok] at h
  obtain ⟨found, ⟨-, -, hfound⟩, h⟩ := h
  cases hfound
  split at h
  . next fact' hsome =>
    cases h
    exact Option.bind_eq_some_iff.mp hsome
  . split at h <;> cases h

theorem mem_of_get {table : FactTable} {ref : Value} {fact : Fact} (h : table.get ref = .ok fact) :
    fact ∈ table.live := by
  obtain ⟨id, -, hfind⟩ := find?_of_get h
  exact List.mem_of_find?_eq_some hfind

theorem follows_insert (table : FactTable) (tag : Value) (data : Entries) :
    ∃ table', (∃ fault, table.insert tag data = (table', .error fault) ∧ table.Follows table' none)
      ∨ ∃ fact, table.insert tag data = (table', .ok fact)
        ∧ table.Follows table' (some (.inserted fact)) := by
  unfold insert
  split
  . exact ⟨table, .inl ⟨_, rfl, table.follows_refl⟩⟩
  split
  . exact ⟨_, .inr ⟨_, rfl, rfl, rfl, rfl, rfl, rfl⟩⟩
  . refine ⟨_, .inl ⟨_, rfl, ?_⟩⟩
    split
    . exact ⟨rfl, by simp only [advance]; omega, by simp only [advance]; omega⟩
    . exact table.follows_refl

theorem follows_update (table : FactTable) (ref : Value) (data : Entries) :
    ∃ table', (∃ fault, table.update ref data = (table', .error fault) ∧ table.Follows table' none)
      ∨ ∃ fact previous, table.update ref data = (table', .ok (fact, previous))
        ∧ table.Follows table' (some (.updated fact previous)) := by
  unfold update
  split
  . exact ⟨table, .inl ⟨_, rfl, table.follows_refl⟩⟩
  next previous hget =>
  split
  . exact ⟨table, .inl ⟨_, rfl, table.follows_refl⟩⟩
  . exact ⟨_, .inr ⟨_, _, rfl, mem_of_get hget, rfl, rfl, rfl, rfl, rfl, rfl⟩⟩

theorem follows_retract (table : FactTable) (ref : Value) :
    ∃ table', (∃ fault, table.retract ref = (table', .error fault) ∧ table.Follows table' none)
      ∨ ∃ fact, table.retract ref = (table', .ok fact)
        ∧ table.Follows table' (some (.retracted fact)) := by
  unfold retract
  split
  . exact ⟨table, .inl ⟨_, rfl, table.follows_refl⟩⟩
  . next fact hget => exact ⟨_, .inr ⟨_, rfl, mem_of_get hget, rfl, rfl, rfl⟩⟩

end FactTable
end ForwardChaining
