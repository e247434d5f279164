import ForwardChaining.Proofs.Network.Rescan
import ForwardChaining.Proofs.Network.Turnover

/-!
This module contains which keys a memory of a negation reports: after any history of facts that came and
went, a step reports the key of its fact exactly when it changes the answer for this key, and no step
changes the answer for another one.
-/

namespace ForwardChaining

theorem Members.lookup_ofFacts {entry : Fact → Option α} {facts : List Fact} (h : Distinct facts)
    (id : Int) : (ofFacts entry facts).lookup id = (facts.find? (·.id = id)).bind entry := by
  cases hfind : facts.find? (·.id = id) with
  | none =>
    apply lookup_ofFacts_eq_none
    intro fact hfact hid
    simpa [hid] using List.find?_eq_none.mp hfind fact hfact
  | some fact =>
    obtain rfl : fact.id = id := by simpa using List.find?_some hfind
    have hmem := List.mem_of_find?_eq_some hfind
    rw [Option.bind_some]
    cases hentry : entry fact with
    | none =>
      apply lookup_ofFacts_eq_none
      intro other hother hid
      rwa [List.inj_on_of_nodup_map h hother hmem hid]
    | some a =>
      rw [lookup_eq_some_iff_mem (nodup_ofFacts h)]
      exact List.mem_filterMap.mpr ⟨fact, hmem, by rw [hentry]; rfl⟩

/-- The entry of the fact that a step is about, among the facts that are there before it. -/
def Turnover.entryAmong (entry : Fact → Option α) (facts : List Fact) : Turnover → Option α
  | .comes fact => entry fact
  | .goes id => (facts.find? (·.id = id)).bind entry

namespace NegationMemory

/--
The memory after a step, and the key that is reported. A filter that fails on the fact leaves the memory
as it is.
-/
def turn (memory : NegationMemory) : Turnover → NegationMemory × Option Key
  | .comes fact =>
    match (memory.add fact).outcome with
    | .ok found => found
    | .error _ => (memory, none)
  | .goes id => memory.remove id

/-- The memory after some steps. -/
def turnAll (memory : NegationMemory) (steps : List Turnover) : NegationMemory :=
  steps.foldl (fun memory step => (memory.turn step).1) memory

/-- No fact comes while its identity is a member. -/
def Orderly (memory : NegationMemory) : List Turnover → Prop
  | [] => True
  | step :: steps => (∀ fact, step = .comes fact → memory.members.lookup fact.id = none)
    ∧ (memory.turn step).1.Orderly steps

theorem orderly_append {memory : NegationMemory} {steps more : List Turnover} :
    memory.Orderly (steps ++ more) ↔ memory.Orderly steps ∧ (memory.turnAll steps).Orderly more := by
  induction steps generalizing memory with
  | nil => simp [Orderly, turnAll]
  | cons step steps ih =>
    rw [List.cons_append, Orderly, Orderly, ih, and_assoc]
    rfl

theorem turn_comes (memory : NegationMemory) (fact : Fact) :
    memory.turn (.comes fact) = match memory.entry fact with
      | some key => (memory.counted fact.id key, if memory.count key = 0 then some key else none)
      | none => (memory, none) := by
  unfold turn
  cases haccepts : memory.filter.accepts fact with
  | error fault =>
    have hadd : (memory.add fact).outcome = .error fault := by
      have htest : (memory.filter.test fact).outcome = .error fault := haccepts
      simp only [add, Logged.outcome_bind, htest, Except.bind]
    have hentry : memory.entry fact = none := by
      rw [entry, FactFilter.admits, haccepts]
      rfl
    simp only [hadd, hentry]
  | ok answer =>
    have hadd := outcome_add_of_accepts haccepts
    cases hentry : memory.entry fact with
    | none =>
      rw [hentry] at hadd
      simp only [hadd]
    | some key =>
      rw [hentry] at hadd
      simp only [hadd]

theorem frame_turn (memory : NegationMemory) (step : Turnover) :
    (memory.turn step).1.filter = memory.filter ∧ (memory.turn step).1.keys = memory.keys := by
  cases step with
  | comes fact =>
    rw [turn_comes]
    cases memory.entry fact <;> exact ⟨rfl, rfl⟩
  | goes id =>
    unfold turn remove
    dsimp only
    cases memory.members.lookup id with
    | none => exact ⟨rfl, rfl⟩
    | some key =>
      dsimp only
      split <;> exact ⟨rfl, rfl⟩

theorem tracks_new (filter : FactFilter) (keys : List KeyBinding) :
    ({ filter, keys } : NegationMemory).Tracks [] :=
  ⟨rfl, .nil, nofun, fun _ _ => rfl⟩

/--
The step reports the key of its own fact, if it counts one, exactly when the answer for this key differs
afterwards, and no answer for another key does.
-/
structure Reports (before after : NegationMemory) (own reported : Option Key) : Prop where
  exactly : ∀ key, reported = some key ↔ own = some key ∧ after.blocked key ≠ before.blocked key
  others : ∀ key : Key, key.Frozen → (∀ k ∈ own, Key.same key k = false) →
    after.blocked key = before.blocked key

theorem reports_nothing (memory : NegationMemory) : memory.Reports memory none none :=
  ⟨fun _ => by simp, fun _ _ _ => rfl⟩

section Turn

variable {memory : NegationMemory} {facts : List Fact} (h : memory.Tracks facts)
  (hdistinct : Distinct facts)

include h

theorem tracks_turn (hdistinct : Distinct facts) {step : Turnover}
    (hfresh : ∀ fact, step = .comes fact → memory.members.lookup fact.id = none) :
    (memory.turn step).1.Tracks (step.applied facts) := by
  cases step with
  | goes id => exact (tracks_remove h hdistinct id).2.2.1
  | comes fact =>
    have hwithout := tracks_without h (hfresh fact rfl)
    rw [turn_comes]
    cases hentry : memory.entry fact with
    | none => exact tracks_ignored hwithout hentry
    | some key => exact (tracks_counted hwithout (unused_without _ _) hentry).1

omit h in
theorem reports_of_count {after : NegationMemory} {key : Key} (hkey : key.Frozen) {flips : Prop}
    [Decidable flips] (hself : flips ↔ after.blocked key ≠ memory.blocked key)
    (hother : ∀ other : Key, other.Frozen → Key.same key other = false →
      after.count other = memory.count other) :
    memory.Reports after (some key) (if flips then some key else none) := by
  constructor
  . intro other
    rw [Option.ite_none_right_eq_some, Option.some.injEq, hself, and_comm]
    exact and_congr_right fun heq => by rw [heq]
  . intro other hfrozen hne
    unfold blocked
    rw [hother other hfrozen]
    rw [hkey.same_comm hfrozen]
    exact hne key rfl

theorem reports_counted (id : Int) {key : Key} (hkey : key.Frozen) :
    memory.Reports (memory.counted id key) (some key)
      (if memory.count key = 0 then some key else none) := by
  apply reports_of_count hkey
  . unfold blocked
    rw [count_counted h.table id hkey hkey, hkey.same_refl, if_pos rfl, ne_eq, decide_eq_decide]
    omega
  . intro other hother hne
    rw [count_counted h.table id hkey hother, hne]
    rfl

include hdistinct

theorem reports_remove (id : Int) :
    memory.Reports (memory.remove id).1 (memory.members.lookup id) (memory.remove id).2 := by
  cases hlookup : memory.members.lookup id with
  | none =>
    rw [remove_of_lookup_none hlookup]
    exact reports_nothing memory
  | some key =>
    have hkey := frozen_of_lookup h hlookup
    have hthere : 0 < memory.count key := by
      rw [count_split h hdistinct hlookup hkey, hkey.same_refl]
      exact Nat.succ_pos _
    have hreported : (memory.remove id).2 = if memory.count key - 1 = 0 then some key else none := by
      rw [remove_of_lookup hlookup]
    rw [hreported]
    apply reports_of_count hkey
    . unfold blocked
      rw [count_remove h.table hkey hkey hlookup, hkey.same_refl, if_pos rfl, ne_eq, decide_eq_decide]
      omega
    . intro other hother hne
      rw [count_remove h.table hkey hother hlookup, hne]
      rfl

theorem reports_turn (step : Turnover) :
    memory.Reports (memory.turn step).1 (step.entryAmong memory.entry facts) (memory.turn step).2 := by
  cases step with
  | comes fact =>
    rw [turn_comes]
    cases hentry : memory.entry fact with
    | none =>
      rw [Turnover.entryAmong, hentry]
      exact reports_nothing memory
    | some key =>
      rw [Turnover.entryAmong, hentry]
      exact reports_counted h fact.id (frozen_of_entry hentry)
  | goes id =>
    rw [Turnover.entryAmong, ← Members.lookup_ofFacts hdistinct, ← h.members]
    exact reports_remove h hdistinct id

end Turn

theorem tracks_turnAll {memory : NegationMemory} {facts : List Fact} (h : memory.Tracks facts)
    (hdistinct : Distinct facts) {steps : List Turnover} (horderly : memory.Orderly steps) :
    (memory.turnAll steps).Tracks (steps.foldl Turnover.applied facts)
      ∧ Distinct (steps.foldl Turnover.applied facts)
      ∧ (memory.turnAll steps).filter = memory.filter ∧ (memory.turnAll steps).keys = memory.keys := by
  induction steps generalizing memory facts with
  | nil => exact ⟨h, hdistinct, rfl, rfl⟩
  | cons step steps ih =>
    obtain ⟨hfresh, hrest⟩ := horderly
    obtain ⟨hfilter, hkeys⟩ := frame_turn memory step
    obtain ⟨htracks, hdistinct', hfilter', hkeys'⟩ :=
      ih (tracks_turn h hdistinct hfresh) (Turnover.distinct_applied hdistinct step) hrest
    exact ⟨htracks, hdistinct', hfilter'.trans hfilter, hkeys'.trans hkeys⟩

/--
After any history in which no fact came while its identity was counted, a memory of a negation answers by
the facts that are left, and the next step reports the key of its fact exactly when it changes the answer
for this key. No step changes the answer for another key.
-/
theorem reports_changes (filter : FactFilter) (keys : List KeyBinding) {steps : List Turnover}
    {step : Turnover} (horderly : ({ filter, keys } : NegationMemory).Orderly (steps ++ [step])) :
    (∀ key : Key, key.Frozen → ((({ filter, keys } : NegationMemory).turnAll steps).blocked key = true
        ↔ ∃ fact ∈ Turnover.standing steps,
          filter.accepts fact = .ok true ∧ Key.same (factKey keys fact) key = true))
      ∧ (({ filter, keys } : NegationMemory).turnAll steps).Reports
        ((({ filter, keys } : NegationMemory).turnAll steps).turn step).1
        (step.entryAmong ({ filter, keys } : NegationMemory).entry (Turnover.standing steps))
        ((({ filter, keys } : NegationMemory).turnAll steps).turn step).2 := by
  obtain ⟨hbefore, -⟩ := orderly_append.mp horderly
  obtain ⟨htracks, hdistinct, hfilter, hkeys⟩ :=
    tracks_turnAll (tracks_new filter keys) List.nodup_nil hbefore
  have hreports := reports_turn htracks hdistinct step
  have hentry : (({ filter, keys } : NegationMemory).turnAll steps).entry
      = ({ filter, keys } : NegationMemory).entry := by
    funext fact
    rw [entry, entry, hfilter, hkeys]
  rw [hentry] at hreports
  refine ⟨?_, hreports⟩
  intro key hkey
  rw [Condition.blocked_eq htracks hkey, hfilter, hkeys, List.any_eq_true]
  refine exists_congr fun fact => and_congr_right fun _ => ?_
  rw [Bool.and_eq_true, FactFilter.admits_iff]

/-- A memory of what an order is on hold for. -/
def holdMemory : NegationMemory where
  filter := { type := "hold" }
  keys := [⟨"order", ⟨"o", "id"⟩⟩]

/-- A hold on an order. -/
def holdFact (id order : Int) : Fact where
  id
  type := "hold"
  data := [(.text "order", .int order)]

/-- An order is held twice; then an unknown fact goes, and one of the two holds. -/
def holds : List Turnover :=
  [.comes (holdFact 1 7), .comes (holdFact 2 7), .goes 9, .goes 1]

/-- The last hold is reported when it goes. -/
theorem reports_changes_last : holdMemory.Orderly (holds ++ [.goes 2])
    ∧ (holdMemory.turnAll holds).blocked [.int 7] = true
    ∧ ((holdMemory.turnAll holds).turn (.goes 2)).1.blocked [.int 7] = false
    ∧ ((holdMemory.turnAll holds).turn (.goes 2)).2 = some [.int 7] := by
  have horderly : holdMemory.Orderly (holds ++ [.goes 2]) := by
    refine ⟨?_, ?_, ?_, ?_, ?_, trivial⟩ <;> rintro fact heq <;> cases heq <;> rfl
  have hbefore : (holdMemory.turnAll holds).blocked [.int 7] = true := rfl
  have hafter : ((holdMemory.turnAll holds).turn (.goes 2)).1.blocked [.int 7] = false := rfl
  obtain ⟨-, hreports⟩ := reports_changes holdMemory.filter holdMemory.keys horderly
  exact ⟨horderly, hbefore, hafter,
    (hreports.exactly [.int 7]).mpr ⟨rfl, fun heq => nomatch hafter.symm.trans (heq.trans hbefore)⟩⟩

end NegationMemory
end ForwardChaining
