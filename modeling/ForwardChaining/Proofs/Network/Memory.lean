import ForwardChaining.Network.Memory
import ForwardChaining.Proofs.Aggregate
import ForwardChaining.Proofs.Fact.Change
import ForwardChaining.Proofs.Rule.Condition

/-!
This module contains what the memories of conditions hold: a memory tracks some facts if it holds what
these facts contribute and nothing else. Facts that come and go keep it in step, and the key that is
reported is the only one whose state changes.
-/

namespace ForwardChaining

@[simp]
theorem FactFilter.outcome_test {filter : FactFilter} (h : filter.Safe) (fact : Fact) :
    (filter.test fact).outcome = .ok (filter.admits fact) :=
  FactFilter.accepts_eq h fact

/-! ### Memories of filters -/

namespace AlphaMemory

/-- The memory holds the identities of the facts that pass its filter. -/
def Tracks (memory : AlphaMemory) (facts : List Fact) : Prop :=
  memory.members = (facts.filter memory.filter.admits).map (·.id)

theorem mem_of_tracks {memory : AlphaMemory} {facts : List Fact} (h : memory.Tracks facts)
    (id : Int) :
    id ∈ memory.members ↔ ∃ fact ∈ facts, fact.id = id ∧ memory.filter.admits fact = true := by
  rw [h]
  simp only [List.mem_map, List.mem_filter]
  constructor
  . rintro ⟨fact, ⟨hmem, hadmits⟩, rfl⟩
    exact ⟨fact, hmem, rfl, hadmits⟩
  . rintro ⟨fact, hmem, rfl, hadmits⟩
    exact ⟨fact, ⟨hmem, hadmits⟩, rfl⟩

theorem tracks_add {memory : AlphaMemory} {facts : List Fact} (h : memory.Tracks facts)
    (hsafe : memory.filter.Safe) {fact : Fact} (hfresh : Unused fact.id facts) :
    ∃ memory', (memory.add fact).outcome = .ok memory' ∧ memory'.filter = memory.filter
      ∧ memory'.Tracks (facts ++ [fact]) := by
  simp only [add, Logged.outcome_bind, FactFilter.outcome_test hsafe, Except.bind]
  cases hadmits : memory.filter.admits fact with
  | false =>
    refine ⟨memory, rfl, rfl, ?_⟩
    rw [Tracks, List.filter_append, h]
    simp [hadmits]
  | true =>
    have hnot : memory.members.contains fact.id = false := by
      rw [← Bool.not_eq_true, List.contains_iff_mem, mem_of_tracks h]
      rintro ⟨other, hmem, hid, -⟩
      exact hfresh other hmem hid
    simp only [if_true, hnot, Bool.false_eq_true, if_false, Logged.outcome_pure, Except.ok.injEq]
    refine ⟨_, rfl, rfl, ?_⟩
    rw [Tracks, List.filter_append, h]
    simp [hadmits]

theorem tracks_remove {memory : AlphaMemory} {facts : List Fact} (h : memory.Tracks facts)
    (id : Int) : (memory.remove id).Tracks (without id facts) := by
  unfold Tracks at h ⊢
  simp only [remove, without, h, List.filter_map, List.filter_filter]
  congr 2
  funext fact
  simp [Bool.and_comm]

end AlphaMemory

/-! ### Entries under identities -/

namespace Members

theorem put_of_unused {id : Int} (a : α) {members : Members α} (h : ∀ m ∈ members, m.1 ≠ id) :
    members.put id a = members ++ [(id, a)] := by
  induction members with
  | nil => rfl
  | cons m members ih =>
    obtain ⟨i, b⟩ := m
    have hne : i ≠ id := h (i, b) (by simp)
    simp only [put, if_neg hne, List.cons_append, List.cons.injEq, true_and]
    exact ih fun m hm => h m (by simp [hm])

/-- The entries that some facts make, in the order of the facts. -/
def ofFacts (entry : Fact → Option α) (facts : List Fact) : Members α :=
  facts.filterMap fun fact => (entry fact).map (fact.id, ·)

theorem unused_ofFacts {entry : Fact → Option α} {facts : List Fact} {id : Int}
    (h : Unused id facts) : ∀ m ∈ ofFacts entry facts, m.1 ≠ id := by
  intro m hm
  simp only [ofFacts, List.mem_filterMap, Option.map_eq_some_iff] at hm
  obtain ⟨fact, hmem, a, -, rfl⟩ := hm
  exact h fact hmem

theorem ofFacts_append (entry : Fact → Option α) (facts : List Fact) (fact : Fact) :
    ofFacts entry (facts ++ [fact])
      = ofFacts entry facts ++ ((entry fact).map (fact.id, ·)).toList := by
  simp only [ofFacts, List.filterMap_append]
  cases h : entry fact <;> simp [h]

theorem drop_ofFacts (entry : Fact → Option α) (facts : List Fact) (id : Int) :
    (ofFacts entry facts).drop id = ofFacts entry (without id facts) := by
  simp only [drop, ofFacts, without, List.filter_filterMap, List.filterMap_filter]
  congr 1
  funext fact
  cases entry fact <;> by_cases h : fact.id = id <;> simp [h, Option.filter]

theorem exists_split {id : Int} {a : α} {members : Members α}
    (hnodup : (members.map (·.1)).Nodup) (h : members.lookup id = some a) :
    ∃ before after, members = before ++ (id, a) :: after
      ∧ members.drop id = before ++ after := by
  obtain ⟨before, after, heq, hbefore⟩ := List.lookup_eq_some_iff.mp h
  refine ⟨before, after, heq, ?_⟩
  rw [heq, List.map_append, List.map_cons, List.nodup_append] at hnodup
  have hafter : ∀ m ∈ after, m.1 ≠ id := by
    intro m hm heqid
    apply (List.nodup_cons.mp hnodup.2.1).1
    exact List.mem_map.mpr ⟨m, hm, heqid⟩
  have hbefore' : ∀ m ∈ before, m.1 ≠ id := by
    intro m hm heqid
    exact hnodup.2.2 id (List.mem_map.mpr ⟨m, hm, heqid⟩) id (by simp) rfl
  rw [heq, drop, List.filter_append, List.filter_cons]
  simp only [ne_eq, not_true_eq_false, decide_false, Bool.false_eq_true, if_false]
  rw [List.filter_eq_self.mpr fun m hm => by simpa using hbefore' m hm,
    List.filter_eq_self.mpr fun m hm => by simpa using hafter m hm]

theorem drop_of_lookup_none {id : Int} {members : Members α} (h : members.lookup id = none) :
    members.drop id = members := by
  apply List.filter_eq_self.mpr
  intro m hm
  have := List.lookup_eq_none_iff.mp h m hm
  simp only [bne_iff_ne, ne_eq] at this
  simpa using fun heq => this heq.symm

theorem lookup_ofFacts_eq_none {entry : Fact → Option α} {facts : List Fact} {id : Int}
    (h : ∀ fact ∈ facts, fact.id = id → entry fact = none) : (ofFacts entry facts).lookup id = none := by
  rw [List.lookup_eq_none_iff]
  intro m hm
  simp only [ofFacts, List.mem_filterMap, Option.map_eq_some_iff] at hm
  obtain ⟨fact, hfact, a, ha, rfl⟩ := hm
  simp only [bne_iff_ne, ne_eq]
  intro hid
  simp [h fact hfact hid.symm] at ha

theorem nodup_ofFacts {entry : Fact → Option α} {facts : List Fact} (h : Distinct facts) :
    ((ofFacts entry facts).map (·.1)).Nodup := by
  have hsub : ((ofFacts entry facts).map (·.1)).Sublist (facts.map (·.id)) := by
    unfold ofFacts
    induction facts with
    | nil => simp
    | cons fact facts ih =>
      have hih := ih (List.nodup_cons.mp h).2
      simp only [List.filterMap_cons, List.map_cons]
      cases entry fact with
      | none => exact hih.cons _
      | some a => exact hih.cons_cons _
  exact hsub.nodup h

end Members

/-! ### Memories of negations -/

namespace NegationMemory

/-- The key under which a fact is counted, if it is. -/
def entry (memory : NegationMemory) (fact : Fact) : Option Key :=
  if memory.filter.admits fact then some (factKey memory.keys fact) else none

/-- The memory holds the keys of the facts that pass its filter, and counts them. -/
structure Tracks (memory : NegationMemory) (facts : List Fact) : Prop where
  members : memory.members = Members.ofFacts memory.entry facts
  table : Key.Table memory.counts
  positive : ∀ key : Key, key.Frozen → ∀ n, Key.find? key memory.counts = some n → 0 < n
  count : ∀ key : Key, key.Frozen →
    memory.count key = memory.members.countP fun m => Key.same m.2 key

/-- The memory after a fact was counted under a key, as `add` leaves it. -/
def counted (memory : NegationMemory) (id : Int) (key : Key) : NegationMemory :=
  { memory with
    counts := Key.insert key (memory.count key + 1) memory.counts
    members := memory.members.put id key }

theorem outcome_add_of_accepts {memory : NegationMemory} {fact : Fact} {answer : Bool}
    (h : memory.filter.accepts fact = .ok answer) :
    (memory.add fact).outcome = .ok (match memory.entry fact with
      | some key => (memory.counted fact.id key, if memory.count key = 0 then some key else none)
      | none => (memory, none)) := by
  have htest : (memory.filter.test fact).outcome = .ok answer := h
  have hadmits : memory.filter.admits fact = answer := by
    rw [FactFilter.admits, h]
    rfl
  simp only [add, Logged.outcome_bind, htest, Except.bind, entry, hadmits]
  cases answer with
  | false => rfl
  | true => simp [counted]

theorem frozen_of_entry {memory : NegationMemory} {fact : Fact} {key : Key}
    (h : memory.entry fact = some key) : key.Frozen := by
  unfold entry at h
  split at h
  . cases h
    exact frozen_factKey memory.keys fact
  . cases h

theorem frozen_of_mem {memory : NegationMemory} {facts : List Fact} (h : memory.Tracks facts)
    {m : Int × Key} (hm : m ∈ memory.members) : m.2.Frozen := by
  rw [h.members] at hm
  simp only [Members.ofFacts, List.mem_filterMap, Option.map_eq_some_iff] at hm
  obtain ⟨fact, -, key, hkey, rfl⟩ := hm
  exact frozen_of_entry hkey

/-- The only key under which the answer of the memory differs afterwards is the one reported. -/
def Follows (memory memory' : NegationMemory) (reported : Option Key) : Prop :=
  ∀ key : Key, key.Frozen → (∀ k ∈ reported, Key.same key k = false) →
    memory'.blocked key = memory.blocked key

theorem find?_counted {memory : NegationMemory} (h : Key.Table memory.counts) (id : Int)
    {key other : Key} (hkey : key.Frozen) (hother : other.Frozen) :
    Key.find? other (memory.counted id key).counts
      = if Key.same key other then some (memory.count other + 1)
        else Key.find? other memory.counts := by
  simp only [counted]
  rw [Key.Table.find?_insert hkey hother _ h]
  split
  . next hsame => rw [count, count, Key.Table.find?_congr hkey hother hsame]
  . rfl

theorem count_counted {memory : NegationMemory} (h : Key.Table memory.counts) (id : Int)
    {key other : Key} (hkey : key.Frozen) (hother : other.Frozen) :
    (memory.counted id key).count other
      = memory.count other + if Key.same key other then 1 else 0 := by
  rw [count, find?_counted h id hkey hother]
  split <;> rfl

theorem tracks_ignored {memory : NegationMemory} {facts : List Fact} (h : memory.Tracks facts)
    {fact : Fact} (hentry : memory.entry fact = none) : memory.Tracks (facts ++ [fact]) := by
  refine ⟨?_, h.table, h.positive, h.count⟩
  rw [Members.ofFacts_append, hentry, h.members]
  simp

theorem tracks_counted {memory : NegationMemory} {facts : List Fact} (h : memory.Tracks facts)
    {fact : Fact} (hfresh : Unused fact.id facts) {key : Key} (hentry : memory.entry fact = some key) :
    (memory.counted fact.id key).Tracks (facts ++ [fact])
      ∧ memory.Follows (memory.counted fact.id key)
        (if memory.count key = 0 then some key else none) := by
  have hkey := frozen_of_entry hentry
  have hmembers : (memory.counted fact.id key).members = memory.members ++ [(fact.id, key)] := by
    apply Members.put_of_unused
    rw [h.members]
    exact Members.unused_ofFacts hfresh
  refine ⟨⟨?_, h.table.insert hkey _, ?_, ?_⟩, ?_⟩
  . rw [hmembers, h.members]
    change _ = Members.ofFacts memory.entry _
    rw [Members.ofFacts_append, hentry]
    rfl
  . intro other hother n hn
    rw [find?_counted h.table fact.id hkey hother] at hn
    split at hn
    . rw [← Option.some.inj hn]
      exact Nat.succ_pos _
    . exact h.positive other hother n hn
  . intro other hother
    rw [count_counted h.table fact.id hkey hother, hmembers, List.countP_append, h.count other hother]
    simp [List.countP_singleton]
  . intro other hother hreported
    unfold blocked
    rw [count_counted h.table fact.id hkey hother]
    cases hsame : Key.same key other with
    | false => rfl
    | true =>
      have hcongr : memory.count key = memory.count other := by
        rw [count, count, Key.Table.find?_congr hkey hother hsame]
      have hpositive : memory.count key ≠ 0 := by
        intro hzero
        have hne := hreported key (by simp [hzero])
        rw [hother.same_comm hkey, hsame] at hne
        cases hne
      simp only [if_true, decide_eq_decide]
      omega

theorem tracks_add {memory : NegationMemory} {facts : List Fact} (h : memory.Tracks facts)
    (hsafe : memory.filter.Safe) {fact : Fact} (hfresh : Unused fact.id facts) :
    ∃ memory' reported, (memory.add fact).outcome = .ok (memory', reported)
      ∧ memory'.filter = memory.filter ∧ memory'.keys = memory.keys
      ∧ memory'.Tracks (facts ++ [fact]) ∧ memory.Follows memory' reported := by
  refine ⟨_, _, outcome_add_of_accepts (FactFilter.accepts_eq hsafe fact), ?_⟩
  cases hentry : memory.entry fact with
  | none => exact ⟨rfl, rfl, tracks_ignored h hentry, fun _ _ _ => rfl⟩
  | some key =>
    obtain ⟨htracks, hfollows⟩ := tracks_counted h hfresh hentry
    exact ⟨rfl, rfl, htracks, hfollows⟩

theorem tracks_without {memory : NegationMemory} {facts : List Fact} (h : memory.Tracks facts)
    {id : Int} (hlookup : memory.members.lookup id = none) : memory.Tracks (without id facts) := by
  refine ⟨?_, h.table, h.positive, h.count⟩
  have hdrop := Members.drop_of_lookup_none hlookup
  rw [h.members, Members.drop_ofFacts] at hdrop
  rw [h.members]
  exact hdrop.symm

theorem remove_of_lookup_none {memory : NegationMemory} {id : Int}
    (h : memory.members.lookup id = none) : memory.remove id = (memory, none) := by
  unfold remove
  simp only [h]

theorem remove_of_lookup {memory : NegationMemory} {id : Int} {key : Key}
    (h : memory.members.lookup id = some key) :
    memory.remove id = ({ memory with
      counts :=
        if memory.count key - 1 = 0 then Key.erase key memory.counts
        else Key.insert key (memory.count key - 1) memory.counts
      members := memory.members.drop id },
      if memory.count key - 1 = 0 then some key else none) := by
  unfold remove
  simp only [h]
  split <;> rfl

theorem members_remove {memory : NegationMemory} {id : Int} {key : Key}
    (h : memory.members.lookup id = some key) :
    (memory.remove id).1.members = memory.members.drop id := by
  rw [remove_of_lookup h]

theorem find?_remove {memory : NegationMemory} (h : Key.Table memory.counts) {id : Int}
    {key other : Key} (hkey : key.Frozen) (hother : other.Frozen)
    (hlookup : memory.members.lookup id = some key) :
    Key.find? other (memory.remove id).1.counts
      = if Key.same key other then
          if memory.count other - 1 = 0 then none else some (memory.count other - 1)
        else Key.find? other memory.counts := by
  have hcongr : Key.same key other = true → memory.count key = memory.count other := by
    intro hsame
    rw [count, count, Key.Table.find?_congr hkey hother hsame]
  rw [remove_of_lookup hlookup]
  simp only
  split
  . next hone =>
    rw [Key.Table.find?_erase hkey hother h]
    split
    . next hsame => rw [← hcongr hsame, if_pos hone]
    . rfl
  . next hmore =>
    rw [Key.Table.find?_insert hkey hother _ h]
    split
    . next hsame => rw [← hcongr hsame, if_neg hmore]
    . rfl

theorem count_remove {memory : NegationMemory} (h : Key.Table memory.counts) {id : Int}
    {key other : Key} (hkey : key.Frozen) (hother : other.Frozen)
    (hlookup : memory.members.lookup id = some key) :
    (memory.remove id).1.count other
      = memory.count other - if Key.same key other then 1 else 0 := by
  rw [count, find?_remove h hkey hother hlookup]
  split
  . split
    . next hzero => exact hzero.symm
    . rfl
  . rfl

theorem count_split {memory : NegationMemory} {facts : List Fact} (h : memory.Tracks facts)
    (hdistinct : Distinct facts) {id : Int} {key : Key}
    (hlookup : memory.members.lookup id = some key) {other : Key} (hother : other.Frozen) :
    memory.count other = (memory.members.drop id).countP (fun m => Key.same m.2 other)
      + if Key.same key other then 1 else 0 := by
  have hnodup : (memory.members.map (·.1)).Nodup := by
    rw [h.members]
    exact Members.nodup_ofFacts hdistinct
  obtain ⟨before, after, hsplit, hdrop⟩ := Members.exists_split hnodup hlookup
  rw [h.count other hother, hdrop, hsplit, List.countP_append, List.countP_append, List.countP_cons]
  simp only
  omega

theorem frozen_of_lookup {memory : NegationMemory} {facts : List Fact} (h : memory.Tracks facts)
    {id : Int} {key : Key} (hlookup : memory.members.lookup id = some key) : key.Frozen := by
  obtain ⟨before, after, hsplit, -⟩ := List.lookup_eq_some_iff.mp hlookup
  exact frozen_of_mem h (m := (id, key)) (by simp [hsplit])

theorem tracks_uncounted {memory : NegationMemory} {facts : List Fact} (h : memory.Tracks facts)
    (hdistinct : Distinct facts) {id : Int} {key : Key}
    (hlookup : memory.members.lookup id = some key) :
    (memory.remove id).1.Tracks (without id facts) := by
  have hkey := frozen_of_lookup h hlookup
  refine ⟨?_, ?_, ?_, ?_⟩
  . rw [remove_of_lookup hlookup]
    change memory.members.drop id = Members.ofFacts memory.entry (without id facts)
    rw [h.members, Members.drop_ofFacts]
  . rw [remove_of_lookup hlookup]
    simp only
    split
    . exact h.table.erase
    . exact h.table.insert hkey _
  . intro other hother n hn
    rw [find?_remove h.table hkey hother hlookup] at hn
    split at hn
    . split at hn
      . cases hn
      . rw [← Option.some.inj hn]
        omega
    . exact h.positive other hother n hn
  . intro other hother
    rw [count_remove h.table hkey hother hlookup, count_split h hdistinct hlookup hother,
      members_remove hlookup]
    omega

theorem follows_uncounted {memory : NegationMemory} (h : Key.Table memory.counts) {id : Int}
    {key : Key} (hkey : key.Frozen) (hlookup : memory.members.lookup id = some key) :
    memory.Follows (memory.remove id).1 (memory.remove id).2 := by
  intro other hother hreported
  unfold blocked
  rw [count_remove h hkey hother hlookup]
  cases hsame : Key.same key other with
  | false => rfl
  | true =>
    have hcongr : memory.count key = memory.count other := by
      rw [count, count, Key.Table.find?_congr hkey hother hsame]
    have hmore : memory.count key - 1 ≠ 0 := by
      intro hone
      rw [remove_of_lookup hlookup] at hreported
      have hne := hreported key (by simp [hone])
      rw [hother.same_comm hkey, hsame] at hne
      cases hne
    simp only [if_true, decide_eq_decide]
    omega

theorem tracks_remove {memory : NegationMemory} {facts : List Fact} (h : memory.Tracks facts)
    (hdistinct : Distinct facts) (id : Int) :
    (memory.remove id).1.filter = memory.filter ∧ (memory.remove id).1.keys = memory.keys
      ∧ (memory.remove id).1.Tracks (without id facts)
      ∧ memory.Follows (memory.remove id).1 (memory.remove id).2 := by
  cases hlookup : memory.members.lookup id with
  | none =>
    rw [remove_of_lookup_none hlookup]
    exact ⟨rfl, rfl, tracks_without h hlookup, fun _ _ _ => rfl⟩
  | some key =>
    refine ⟨?_, ?_, tracks_uncounted h hdistinct hlookup,
      follows_uncounted h.table (frozen_of_lookup h hlookup) hlookup⟩
    . rw [remove_of_lookup hlookup]
    . rw [remove_of_lookup hlookup]

end NegationMemory

/-! ### Tallies -/

namespace Tally

/-- Every contribution of the tally is an integer that was counted. -/
def Proper (tally : Tally) : Prop :=
  ∀ entry ∈ tally, entry.1.IsInt ∧ 0 < entry.2

/-- What is counted are numbers. -/
def Numeric (tally : Tally) : Prop :=
  ∀ entry ∈ tally, entry.1.IsNumber

theorem Numeric.add {tally : Tally} (h : tally.Numeric) {x : Value} (hx : x.IsNumber) :
    (tally.add x).Numeric := by
  induction tally with
  | nil => simpa [Numeric, Tally.add] using hx
  | cons entry tally ih =>
    rw [Numeric, List.forall_mem_cons] at h
    unfold Tally.add
    split
    . exact List.forall_mem_cons.mpr ⟨h.1, h.2⟩
    . exact List.forall_mem_cons.mpr ⟨h.1, ih h.2⟩

theorem Numeric.remove {tally : Tally} (h : tally.Numeric) (x : Value) :
    (tally.remove x).Numeric := by
  induction tally with
  | nil => exact h
  | cons entry tally ih =>
    rw [Numeric, List.forall_mem_cons] at h
    unfold Tally.remove
    split
    . split
      . exact h.2
      . exact List.forall_mem_cons.mpr ⟨h.1, h.2⟩
    . exact List.forall_mem_cons.mpr ⟨h.1, ih h.2⟩

theorem Numeric.elements {tally : Tally} (h : tally.Numeric) : ∀ x ∈ tally.elements, x.IsNumber := by
  intro x hx
  obtain ⟨⟨y, n⟩, hentry, hmem⟩ := List.mem_flatMap.mp hx
  rw [List.eq_of_mem_replicate hmem]
  exact h _ hentry

/-- Every contribution of the tally has the property, and was counted. -/
def Draws (P : Value → Prop) (tally : Tally) : Prop :=
  ∀ entry ∈ tally, P entry.1 ∧ 0 < entry.2

theorem Draws.elements {P : Value → Prop} {tally : Tally} (h : tally.Draws P) :
    ∀ x ∈ tally.elements, P x := by
  intro x hx
  obtain ⟨⟨y, n⟩, hentry, hmem⟩ := List.mem_flatMap.mp hx
  rw [List.eq_of_mem_replicate hmem]
  exact (h _ hentry).1

theorem elements_cons (y : Value) (n : Nat) (tally : Tally) :
    elements ((y, n) :: tally) = List.replicate n y ++ tally.elements :=
  List.flatMap_cons

theorem Draws.add {P : Value → Prop} {tally : Tally} (h : tally.Draws P) {x : Value}
    (hx : x.IsNumber) (hP : P x) : (tally.add x).Draws P
      ∧ ((tally.add x).elements.map Value.sense?).Perm (x.sense? :: tally.elements.map Value.sense?) := by
  induction tally with
  | nil => exact ⟨by simpa [Draws, Tally.add] using hP, by simp [Tally.add, Tally.elements]⟩
  | cons entry tally ih =>
    obtain ⟨y, k⟩ := entry
    rw [Draws, List.forall_mem_cons] at h
    unfold Tally.add
    split
    . next hsame =>
      rw [hx.same_iff] at hsame
      refine ⟨List.forall_mem_cons.mpr ⟨⟨h.1.1, Nat.succ_pos k⟩, h.2⟩, ?_⟩
      rw [elements_cons, elements_cons, List.replicate_succ, hsame]
      exact .refl _
    . obtain ⟨hdraws, hperm⟩ := ih h.2
      refine ⟨List.forall_mem_cons.mpr ⟨h.1, hdraws⟩, ?_⟩
      rw [elements_cons, elements_cons, List.map_append, List.map_append]
      exact (hperm.append_left _).trans List.perm_middle

theorem Draws.remove {P : Value → Prop} {tally : Tally} (h : tally.Draws P) {x : Value}
    (hx : x.IsNumber) (hmem : x.sense? ∈ tally.elements.map Value.sense?) : (tally.remove x).Draws P
      ∧ (tally.elements.map Value.sense?).Perm
        (x.sense? :: (tally.remove x).elements.map Value.sense?) := by
  induction tally with
  | nil => cases hmem
  | cons entry tally ih =>
    obtain ⟨y, k⟩ := entry
    rw [Draws, List.forall_mem_cons] at h
    unfold Tally.remove
    split
    . next hsame =>
      rw [hx.same_iff] at hsame
      obtain ⟨j, rfl⟩ : ∃ j, k = j + 1 := ⟨k - 1, by have := h.1.2; simp only at this; omega⟩
      rw [elements_cons, List.replicate_succ, hsame]
      split
      . next hone =>
        obtain rfl : j = 0 := by omega
        exact ⟨h.2, .refl _⟩
      . next hmore =>
        refine ⟨List.forall_mem_cons.mpr ⟨⟨h.1.1, by simp only; omega⟩, h.2⟩, ?_⟩
        rw [elements_cons, Nat.add_sub_cancel]
        exact .refl _
    . next hdiffer =>
      rw [hx.same_iff] at hdiffer
      rw [elements_cons, List.map_append, List.mem_append] at hmem
      -- The entry is of another number, so the number is among the later ones.
      have hlater : x.sense? ∈ (Tally.elements tally).map Value.sense? := by
        rcases hmem with hmem | hmem
        . obtain ⟨z, hz, heq⟩ := List.mem_map.mp hmem
          rw [List.eq_of_mem_replicate hz] at heq
          exact absurd heq.symm hdiffer
        . exact hmem
      obtain ⟨hdraws, hperm⟩ := ih h.2 hlater
      refine ⟨List.forall_mem_cons.mpr ⟨h.1, hdraws⟩, ?_⟩
      rw [elements_cons, elements_cons, List.map_append, List.map_append]
      exact (hperm.append_left _).trans List.perm_middle

end Tally

/-! ### Memories of aggregates -/

theorem AggregateTest.contribution_number {test : AggregateTest} {fact : Fact} {x : Value}
    (h : test.contribution fact = some x) : x.IsNumber := by
  unfold contribution at h
  split at h
  . rw [← Option.some.inj h]
    trivial
  . split at h
    . cases h
    . split at h
      . cases h
      . split at h <;> first | (rw [← Option.some.inj h]; trivial) | cases h

namespace AggregateMemory

/-- The key under which a fact contributes and what it contributes, if it does. -/
def entry (memory : AggregateMemory) (fact : Fact) : Option (Key × Value) :=
  if memory.filter.admits fact then
    (memory.test.contribution fact).map (factKey memory.keys fact, ·)
  else none

/-- What the members under a key contribute. -/
def contributions (key : Key) (members : Members (Key × Value)) : List Value :=
  (members.filter fun m => Key.same m.2.1 key).map (·.2.2)

/-- The group is there if something is contributed to it, and it counts this. -/
def Counted (contributed : List Value) : Option Group → Prop
  | none => contributed = []
  | some group => group.count = contributed.length ∧ 0 < group.count

/-- The memory holds what the facts that pass its filter contribute, and counts it by groups. -/
structure Tracks (memory : AggregateMemory) (facts : List Fact) : Prop where
  members : memory.members = Members.ofFacts memory.entry facts
  table : Key.Table memory.groups
  counted : ∀ key : Key, key.Frozen →
    Counted (contributions key memory.members) (Key.find? key memory.groups)
  numeric : ∀ key : Key, key.Frozen → ((Key.find? key memory.groups).getD {}).tally.Numeric

/-- All contributions are integers, and the groups hold them. -/
structure Exact (memory : AggregateMemory) : Prop where
  ints : ∀ m ∈ memory.members, m.2.2.IsInt
  tallies : ∀ key : Key, key.Frozen → ∀ group, Key.find? key memory.groups = some group →
    group.tally.Proper ∧ group.tally.elements.Perm (contributions key memory.members)

/-- The only group that differs afterwards is that of the key reported. -/
def Follows (memory memory' : AggregateMemory) (reported : Option Key) : Prop :=
  ∀ key : Key, key.Frozen → (∀ k ∈ reported, Key.same key k = false) →
    Key.find? key memory'.groups = Key.find? key memory.groups

theorem eq_of_entry {memory : AggregateMemory} {fact : Fact} {key : Key} {x : Value}
    (h : memory.entry fact = some (key, x)) :
    factKey memory.keys fact = key ∧ memory.test.contribution fact = some x := by
  unfold entry at h
  split at h
  . obtain ⟨y, hy, heq⟩ := Option.map_eq_some_iff.mp h
    obtain ⟨hkey, rfl⟩ := Prod.mk.inj heq
    exact ⟨hkey, hy⟩
  . cases h

theorem frozen_of_entry {memory : AggregateMemory} {fact : Fact} {key : Key} {x : Value}
    (h : memory.entry fact = some (key, x)) : key.Frozen := by
  rw [← (eq_of_entry h).1]
  exact frozen_factKey memory.keys fact

theorem frozen_of_mem {memory : AggregateMemory} {facts : List Fact} (h : memory.Tracks facts)
    {m : Int × Key × Value} (hm : m ∈ memory.members) : m.2.1.Frozen := by
  rw [h.members] at hm
  simp only [Members.ofFacts, List.mem_filterMap, Option.map_eq_some_iff] at hm
  obtain ⟨fact, -, e, he, rfl⟩ := hm
  exact frozen_of_entry he

theorem number_of_mem {memory : AggregateMemory} {facts : List Fact} (h : memory.Tracks facts)
    {m : Int × Key × Value} (hm : m ∈ memory.members) : m.2.2.IsNumber := by
  rw [h.members] at hm
  simp only [Members.ofFacts, List.mem_filterMap, Option.map_eq_some_iff] at hm
  obtain ⟨fact, -, e, he, rfl⟩ := hm
  exact AggregateTest.contribution_number (eq_of_entry he).2

theorem contributions_append (key : Key) (members : Members (Key × Value))
    (m : Int × Key × Value) :
    contributions key (members ++ [m])
      = contributions key members ++ if Key.same m.2.1 key then [m.2.2] else [] := by
  unfold contributions
  rw [List.filter_append, List.map_append, List.filter_singleton]
  cases Key.same m.2.1 key <;> rfl

/-- The memory after a contribution, as `add` leaves it. -/
def folded (memory : AggregateMemory) (id : Int) (key : Key) (x : Value) : AggregateMemory :=
  let group := (Key.find? key memory.groups).getD {}
  { memory with
    groups := Key.insert key ⟨group.count + 1, group.tally.add x⟩ memory.groups
    members := memory.members.put id (key, x) }

theorem outcome_add_of_accepts {memory : AggregateMemory} {fact : Fact} {answer : Bool}
    (h : memory.filter.accepts fact = .ok answer) :
    (memory.add fact).outcome = .ok (match memory.entry fact with
      | some (key, x) => (memory.folded fact.id key x, some key)
      | none => (memory, none)) := by
  have htest : (memory.filter.test fact).outcome = .ok answer := h
  have hadmits : memory.filter.admits fact = answer := by
    rw [FactFilter.admits, h]
    rfl
  simp only [add, Logged.outcome_bind, htest, Except.bind, entry, hadmits]
  cases answer with
  | false => rfl
  | true =>
    simp only [if_true]
    cases memory.test.contribution fact <;> rfl

theorem outcome_add {memory : AggregateMemory} (hsafe : memory.filter.Safe) (fact : Fact) :
    (memory.add fact).outcome = .ok (match memory.entry fact with
      | some (key, x) => (memory.folded fact.id key x, some key)
      | none => (memory, none)) :=
  outcome_add_of_accepts (FactFilter.accepts_eq hsafe fact)

theorem tracks_ignored {memory : AggregateMemory} {facts : List Fact} (h : memory.Tracks facts)
    {fact : Fact} (hentry : memory.entry fact = none) : memory.Tracks (facts ++ [fact]) := by
  refine ⟨?_, h.table, h.counted, h.numeric⟩
  rw [Members.ofFacts_append, hentry, h.members]
  simp

theorem tracks_without {memory : AggregateMemory} {facts : List Fact} (h : memory.Tracks facts)
    {id : Int} (hlookup : memory.members.lookup id = none) : memory.Tracks (without id facts) := by
  refine ⟨?_, h.table, h.counted, h.numeric⟩
  have hdrop := Members.drop_of_lookup_none hlookup
  rw [h.members, Members.drop_ofFacts] at hdrop
  rw [h.members]
  exact hdrop.symm

theorem members_folded {memory : AggregateMemory} {facts : List Fact} (h : memory.Tracks facts)
    {id : Int} (hfresh : Unused id facts) (key : Key) (x : Value) :
    (memory.folded id key x).members = memory.members ++ [(id, key, x)] := by
  apply Members.put_of_unused
  rw [h.members]
  exact Members.unused_ofFacts hfresh

theorem find?_folded {memory : AggregateMemory} {facts : List Fact} (h : memory.Tracks facts)
    (id : Int) {key other : Key} (hkey : key.Frozen) (hother : other.Frozen) (x : Value) :
    Key.find? other (memory.folded id key x).groups
      = if Key.same key other then
          some ⟨((Key.find? other memory.groups).getD {}).count + 1,
            ((Key.find? other memory.groups).getD {}).tally.add x⟩
        else Key.find? other memory.groups := by
  simp only [folded]
  rw [Key.Table.find?_insert hkey hother _ h.table]
  split
  . next hsame => rw [Key.Table.find?_congr hkey hother hsame]
  . rfl

theorem Counted.count_eq {contributed : List Value} {group : Option Group}
    (h : Counted contributed group) : (group.getD {}).count = contributed.length := by
  cases group with
  | none =>
    rw [show contributed = [] from h]
    rfl
  | some group => exact h.1

theorem Counted.congr {contributed contributed' : List Value} {group : Option Group}
    (h : Counted contributed group) (hlength : contributed.length = contributed'.length) :
    Counted contributed' group := by
  cases group with
  | none =>
    rw [show contributed = [] from h] at hlength
    exact List.eq_nil_of_length_eq_zero hlength.symm
  | some group => exact ⟨h.1.trans hlength, h.2⟩

theorem Counted.pred {contributed contributed' : List Value} {group : Option Group}
    (h : Counted contributed group) (hlength : contributed.length = contributed'.length + 1)
    (tally : Tally) :
    Counted contributed' (if (group.getD {}).count - 1 = 0 then none
      else some ⟨(group.getD {}).count - 1, tally⟩) := by
  have hcount := h.count_eq
  split
  . apply List.eq_nil_of_length_eq_zero
    omega
  . refine ⟨?_, ?_⟩ <;> simp only <;> omega

theorem tracks_folded {memory : AggregateMemory} {facts : List Fact} (h : memory.Tracks facts)
    {fact : Fact} (hfresh : Unused fact.id facts) {key : Key} {x : Value}
    (hentry : memory.entry fact = some (key, x)) :
    (memory.folded fact.id key x).Tracks (facts ++ [fact])
      ∧ memory.Follows (memory.folded fact.id key x) (some key) := by
  have hkey := frozen_of_entry hentry
  refine ⟨⟨?_, h.table.insert hkey _, ?_, ?_⟩, ?_⟩
  . rw [members_folded h hfresh, Members.ofFacts_append, h.members]
    change _ = _ ++ ((memory.entry fact).map _).toList
    rw [hentry]
    rfl
  . intro other hother
    rw [find?_folded h fact.id hkey hother, members_folded h hfresh, contributions_append]
    have hcounted := h.counted other hother
    split
    . refine ⟨?_, Nat.succ_pos _⟩
      simp [hcounted.count_eq]
    . simpa using hcounted
  . intro other hother
    rw [find?_folded h fact.id hkey hother]
    split
    . exact (h.numeric other hother).add (AggregateTest.contribution_number (eq_of_entry hentry).2)
    . exact h.numeric other hother
  . intro other hother hreported
    have hne : Key.same key other = false := by
      rw [hkey.same_comm hother]
      exact hreported key rfl
    rw [find?_folded h fact.id hkey hother, hne]
    rfl

/-- What is contributed under the key, as numbers, is what its group counts. -/
def Tallied (memory : AggregateMemory) (key : Key) (P : Value → Prop) : Prop :=
  ∀ group, Key.find? key memory.groups = some group → group.tally.Draws P
    ∧ (group.tally.elements.map Value.sense?).Perm
      ((contributions key memory.members).map Value.sense?)

theorem tallied_folded {memory : AggregateMemory} {facts : List Fact} (h : memory.Tracks facts)
    {id : Int} (hfresh : Unused id facts) {key other : Key} {x : Value} (hkey : key.Frozen)
    (hother : other.Frozen) (hx : x.IsNumber) {P : Value → Prop}
    (hP : Key.same key other = true → P x) (htallied : memory.Tallied other P) :
    (memory.folded id key x).Tallied other P := by
  intro group hgroup
  rw [members_folded h hfresh, contributions_append]
  rw [find?_folded h id hkey hother] at hgroup
  split at hgroup
  . next hsame =>
    have hold : ((Key.find? other memory.groups).getD {}).tally.Draws P
        ∧ (((Key.find? other memory.groups).getD {}).tally.elements.map Value.sense?).Perm
            ((contributions other memory.members).map Value.sense?) := by
      have hcounted := h.counted other hother
      cases hfind : Key.find? other memory.groups with
      | none =>
        rw [hfind] at hcounted
        rw [show contributions other memory.members = [] from hcounted]
        exact ⟨List.forall_mem_nil _, .refl _⟩
      | some group => exact htallied group hfind
    obtain ⟨hdraws, hperm⟩ := hold.1.add hx (hP hsame)
    rw [← Option.some.inj hgroup, if_pos hsame, List.map_append, List.map_singleton]
    exact ⟨hdraws, hperm.trans ((hold.2.cons _).trans (List.perm_append_singleton _ _).symm)⟩
  . next hne =>
    rw [if_neg hne, List.append_nil]
    exact htallied group hgroup

theorem Exact.tallied {memory : AggregateMemory} (h : memory.Exact) (key : Key) (hkey : key.Frozen) :
    memory.Tallied key Value.IsInt := by
  intro group hgroup
  obtain ⟨hproper, hperm⟩ := h.tallies key hkey group hgroup
  exact ⟨hproper, hperm.map _⟩

theorem exact_of_tallied {memory : AggregateMemory} (hints : ∀ m ∈ memory.members, m.2.2.IsInt)
    (htallied : ∀ key : Key, key.Frozen → memory.Tallied key Value.IsInt) : memory.Exact := by
  refine ⟨hints, ?_⟩
  intro key hkey group hgroup
  obtain ⟨hdraws, hperm⟩ := htallied key hkey group hgroup
  refine ⟨hdraws, Value.perm_of_sense hperm ?_⟩
  intro x hx y hy heq
  obtain ⟨m, hm, rfl⟩ := List.mem_map.mp hy
  have hint := hints m (List.mem_of_mem_filter hm)
  have hsame := (hdraws.elements x hx).number.same_iff.mpr heq
  exact (hdraws.elements x hx).eq_of_same hint hsame

theorem exact_folded {memory : AggregateMemory} {facts : List Fact} (h : memory.Tracks facts)
    (hexact : memory.Exact) {id : Int} (hfresh : Unused id facts) {key : Key} {x : Value}
    (hkey : key.Frozen) (hx : x.IsInt) : (memory.folded id key x).Exact := by
  apply exact_of_tallied
  . intro m hm
    rw [members_folded h hfresh, List.mem_append, List.mem_singleton] at hm
    rcases hm with hm | rfl
    . exact hexact.ints m hm
    . exact hx
  . intro other hother
    exact tallied_folded h hfresh hkey hother hx.number (fun _ => hx) (hexact.tallied other hother)

theorem contributions_split {memory : AggregateMemory} {facts : List Fact}
    (h : memory.Tracks facts) (hdistinct : Distinct facts) {id : Int} {key : Key} {x : Value}
    (hlookup : memory.members.lookup id = some (key, x)) (other : Key) :
    (contributions other memory.members).Perm
      ((if Key.same key other then [x] else [])
        ++ contributions other (memory.members.drop id)) := by
  have hnodup : (memory.members.map (·.1)).Nodup := by
    rw [h.members]
    exact Members.nodup_ofFacts hdistinct
  obtain ⟨before, after, hsplit, hdrop⟩ := Members.exists_split hnodup hlookup
  rw [hdrop, hsplit]
  unfold contributions
  simp only [List.filter_append, List.map_append, List.filter_cons]
  split
  . simp
  . simp

theorem frozen_of_lookup {memory : AggregateMemory} {facts : List Fact} (h : memory.Tracks facts)
    {id : Int} {key : Key} {x : Value} (hlookup : memory.members.lookup id = some (key, x)) :
    key.Frozen := by
  obtain ⟨before, after, hsplit, -⟩ := List.lookup_eq_some_iff.mp hlookup
  exact frozen_of_mem h (m := (id, key, x)) (by simp [hsplit])

theorem remove_of_lookup_none {memory : AggregateMemory} {id : Int}
    (h : memory.members.lookup id = none) : memory.remove id = (memory, none) := by
  unfold remove
  simp only [h]

theorem remove_of_lookup {memory : AggregateMemory} {id : Int} {key : Key} {x : Value}
    (h : memory.members.lookup id = some (key, x)) :
    memory.remove id = ({ memory with
      groups :=
        let group := (Key.find? key memory.groups).getD {}
        if group.count - 1 = 0 then Key.erase key memory.groups
        else Key.insert key ⟨group.count - 1, group.tally.remove x⟩ memory.groups
      members := memory.members.drop id }, some key) := by
  unfold remove
  simp only [h]
  split <;> rfl

theorem members_remove {memory : AggregateMemory} {id : Int} {key : Key} {x : Value}
    (h : memory.members.lookup id = some (key, x)) :
    (memory.remove id).1.members = memory.members.drop id := by
  rw [remove_of_lookup h]

theorem find?_remove {memory : AggregateMemory} {facts : List Fact} (h : memory.Tracks facts)
    {id : Int} {key other : Key} (hkey : key.Frozen) (hother : other.Frozen) {x : Value}
    (hlookup : memory.members.lookup id = some (key, x)) :
    Key.find? other (memory.remove id).1.groups
      = if Key.same key other then
          let group := (Key.find? other memory.groups).getD {}
          if group.count - 1 = 0 then none else some ⟨group.count - 1, group.tally.remove x⟩
        else Key.find? other memory.groups := by
  rw [remove_of_lookup hlookup]
  simp only
  split
  . next hzero =>
    rw [Key.Table.find?_erase hkey hother h.table]
    split
    . next hsame =>
      rw [← Key.Table.find?_congr hkey hother hsame, if_pos hzero]
    . rfl
  . next hmore =>
    rw [Key.Table.find?_insert hkey hother _ h.table]
    split
    . next hsame =>
      rw [← Key.Table.find?_congr hkey hother hsame, if_neg hmore]
    . rfl

theorem tracks_unfolded {memory : AggregateMemory} {facts : List Fact} (h : memory.Tracks facts)
    (hdistinct : Distinct facts) {id : Int} {key : Key} {x : Value}
    (hlookup : memory.members.lookup id = some (key, x)) :
    (memory.remove id).1.Tracks (without id facts) := by
  have hkey := frozen_of_lookup h hlookup
  refine ⟨?_, ?_, ?_, ?_⟩
  . rw [remove_of_lookup hlookup]
    change memory.members.drop id = Members.ofFacts memory.entry (without id facts)
    rw [h.members, Members.drop_ofFacts]
  . rw [remove_of_lookup hlookup]
    simp only
    split
    . exact h.table.erase
    . exact h.table.insert hkey _
  . intro other hother
    rw [find?_remove h hkey hother hlookup, members_remove hlookup]
    have hperm := (contributions_split h hdistinct hlookup other).length_eq
    split
    . next hsame =>
      apply (h.counted other hother).pred
      rw [hperm, if_pos hsame, List.length_append, List.length_singleton, Nat.add_comm]
    . next hne =>
      apply (h.counted other hother).congr
      rw [hperm, if_neg hne, List.nil_append]
  . intro other hother
    rw [find?_remove h hkey hother hlookup]
    dsimp only
    split
    . split
      . exact List.forall_mem_nil _
      . exact (h.numeric other hother).remove x
    . exact h.numeric other hother

theorem tracks_remove {memory : AggregateMemory} {facts : List Fact} (h : memory.Tracks facts)
    (hdistinct : Distinct facts) (id : Int) :
    (memory.remove id).1.filter = memory.filter ∧ (memory.remove id).1.keys = memory.keys
      ∧ (memory.remove id).1.test = memory.test
      ∧ (memory.remove id).1.Tracks (without id facts)
      ∧ memory.Follows (memory.remove id).1 (memory.remove id).2 := by
  cases hlookup : memory.members.lookup id with
  | none =>
    rw [remove_of_lookup_none hlookup]
    exact ⟨rfl, rfl, rfl, tracks_without h hlookup, fun _ _ _ => rfl⟩
  | some found =>
    obtain ⟨key, x⟩ := found
    have hkey := frozen_of_lookup h hlookup
    have hfind := fun other (hother : Key.Frozen other) => find?_remove h hkey hother hlookup
    have htracks := tracks_unfolded h hdistinct hlookup
    rw [remove_of_lookup hlookup] at hfind htracks ⊢
    refine ⟨rfl, rfl, rfl, htracks, ?_⟩
    intro other hother hreported
    have hne : Key.same key other = false := by
      rw [hkey.same_comm hother]
      exact hreported key rfl
    rw [hfind other hother, hne]
    rfl

theorem tallied_remove {memory : AggregateMemory} {facts : List Fact} (h : memory.Tracks facts)
    (hdistinct : Distinct facts) (id : Int) {other : Key} (hother : other.Frozen) {P : Value → Prop}
    (htallied : memory.Tallied other P) : (memory.remove id).1.Tallied other P := by
  cases hlookup : memory.members.lookup id with
  | none =>
    rw [remove_of_lookup_none hlookup]
    exact htallied
  | some found =>
    obtain ⟨key, x⟩ := found
    obtain ⟨before, after, hsplit, -⟩ := List.lookup_eq_some_iff.mp hlookup
    have hmember : (id, key, x) ∈ memory.members := by simp [hsplit]
    have hx : x.IsNumber := number_of_mem h hmember
    intro group hgroup
    rw [find?_remove h (frozen_of_lookup h hlookup) hother hlookup] at hgroup
    rw [members_remove hlookup]
    have hperm := (contributions_split h hdistinct hlookup other).map Value.sense?
    split at hgroup
    . next hsame =>
      simp only [hsame, if_true, List.singleton_append, List.map_cons] at hperm
      simp only at hgroup
      split at hgroup
      . cases hgroup
      . next hmore =>
        rw [Option.some.injEq] at hgroup
        subst hgroup
        cases hfind : Key.find? other memory.groups with
        | none => simp [hfind] at hmore
        | some group =>
          obtain ⟨hdraws, hcontributed⟩ := htallied group hfind
          have hall := hcontributed.trans hperm
          obtain ⟨hdraws', hremoved⟩ := hdraws.remove hx (hall.mem_iff.mpr List.mem_cons_self)
          exact ⟨hdraws', (hremoved.symm.trans hall).cons_inv⟩
    . next hne =>
      rw [if_neg hne, List.nil_append] at hperm
      obtain ⟨hdraws, hcontributed⟩ := htallied group hgroup
      exact ⟨hdraws, hcontributed.trans hperm⟩

theorem exact_remove {memory : AggregateMemory} {facts : List Fact} (h : memory.Tracks facts)
    (hexact : memory.Exact) (hdistinct : Distinct facts) (id : Int) :
    (memory.remove id).1.Exact := by
  apply exact_of_tallied
  . intro m hm
    refine hexact.ints m ?_
    cases hlookup : memory.members.lookup id with
    | none =>
      rw [remove_of_lookup_none hlookup] at hm
      exact hm
    | some found =>
      rw [members_remove hlookup] at hm
      exact List.mem_of_mem_filter hm
  . intro other hother
    exact tallied_remove h hdistinct id hother (hexact.tallied other hother)

/-- What the facts under a key contribute that pass a filter. -/
def contributionsOf (filter : FactFilter) (keys : List KeyBinding) (test : AggregateTest) (key : Key)
    (facts : List Fact) : List Value :=
  facts.filterMap fun fact =>
    if filter.admits fact && Key.same (factKey keys fact) key then test.contribution fact else none

theorem contributions_eq {memory : AggregateMemory} {facts : List Fact} (h : memory.Tracks facts)
    (key : Key) :
    contributions key memory.members
      = contributionsOf memory.filter memory.keys memory.test key facts := by
  rw [h.members]
  unfold contributions contributionsOf Members.ofFacts
  rw [List.filter_filterMap, List.map_filterMap]
  congr
  funext fact
  cases hadmits : memory.filter.admits fact with
  | false => simp [entry, hadmits]
  | true =>
    cases hsame : Key.same (factKey memory.keys fact) key <;>
      cases hx : memory.test.contribution fact <;> simp [entry, hadmits, hsame, hx, Option.filter]

theorem value_eq {memory : AggregateMemory} {facts : List Fact} (h : memory.Tracks facts)
    (hexact : memory.Exact) {key : Key} (hkey : key.Frozen) (n : Nat) {contributed : List Value}
    (hperm : contributed.Perm (contributions key memory.members)) :
    ∃ x, memory.value n key = .ok x ∧ memory.test.function.value n contributed = .ok x
      ∧ x.IsPlain := by
  have hints : ∀ x ∈ contributions key memory.members, x.IsInt := by
    intro x hx
    obtain ⟨m, hm, rfl⟩ := List.mem_map.mp hx
    exact hexact.ints m (List.mem_of_mem_filter hm)
  have hcontributed : ∀ x ∈ contributed, x.IsInt := fun x hx => hints x (hperm.mem_iff.mp hx)
  unfold value
  have hcounted := h.counted key hkey
  cases hfind : Key.find? key memory.groups with
  | none =>
    rw [hfind] at hcounted
    rw [show contributions key memory.members = [] from hcounted] at hperm
    obtain ⟨x, hx, hx', hplain⟩ :=
      memory.test.function.value_perm n hcontributed hperm
    exact ⟨x, hx', hx, hplain⟩
  | some group =>
    rw [hfind] at hcounted
    obtain ⟨-, htally⟩ := hexact.tallies key hkey group hfind
    cases hfunction : memory.test.function with
    | count =>
      refine ⟨.int group.count, rfl, ?_, .inr ⟨_, rfl⟩⟩
      rw [AggregateFunction.value, hperm.length_eq, hcounted.1]
    | sum | min | max =>
      obtain ⟨x, hx, hx', hplain⟩ :=
        memory.test.function.value_perm n hcontributed (hperm.trans htally.symm)
      rw [hfunction] at hx hx'
      exact ⟨x, hx', hx, hplain⟩

theorem value_ok {memory : AggregateMemory} {facts : List Fact} (h : memory.Tracks facts)
    (hsum : memory.test.function ≠ .sum) {key : Key} (hkey : key.Frozen) (n : Nat) :
    ∃ x, memory.value n key = .ok x := by
  have hnumeric := h.numeric key hkey
  unfold value
  cases hfind : Key.find? key memory.groups with
  | none => exact memory.test.function.value_ok hsum n (by simp)
  | some group =>
    rw [hfind] at hnumeric
    split
    . next heq => cases heq
    . exact ⟨_, rfl⟩
    . next heq _ =>
      obtain rfl := Option.some.inj heq
      exact AggregateFunction.value_ok hsum n hnumeric.elements

theorem passes_eq {memory : AggregateMemory} {facts : List Fact} (h : memory.Tracks facts)
    (hexact : memory.Exact) {key : Key} (hkey : key.Frozen) {contributed : List Value}
    (hperm : contributed.Perm (contributions key memory.members)) :
    ∃ answer, memory.passes key = .ok answer
      ∧ (memory.test.function.value 0 contributed).bind memory.test.satisfiedBy = .ok answer := by
  obtain ⟨x, hx, hx', hplain⟩ := value_eq h hexact hkey 0 hperm
  obtain ⟨answer, hanswer⟩ : ∃ answer, memory.test.satisfiedBy x = .ok answer :=
    Operator.apply_ok_of_hashable hplain.hashable
  refine ⟨answer, ?_, ?_⟩
  . unfold passes
    rw [hx]
    exact hanswer
  . rw [hx']
    exact hanswer

end AggregateMemory

end ForwardChaining
