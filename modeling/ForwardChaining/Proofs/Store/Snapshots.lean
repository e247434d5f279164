import ForwardChaining.Proofs.Past
import ForwardChaining.Proofs.Store.Calls

/-!
This module contains what the first listener of a store can tell from the changes that it receives: it knows
the live facts as they are, whatever blocks there are and whoever else fails.
-/

namespace ForwardChaining

/-- The changes that the listener of a number was called with, in this order. -/
def receivedBy (number : Nat) (calls : List Call) : List Change :=
  (calls.filter (·.listener = number)).map (·.change)

theorem receivedBy_append (number : Nat) (calls more : List Call) :
    receivedBy number (calls ++ more) = receivedBy number calls ++ receivedBy number more := by
  rw [receivedBy, List.filter_append, List.map_append]
  rfl

theorem AtOnce.listener_mem {change : Change} {numbers : List Nat} {calls : List Call}
    (h : AtOnce change numbers calls) : ∀ call ∈ calls, call.listener ∈ numbers := by
  induction h with
  | done => simp
  | failed number numbers fault => simp
  | next number h ih =>
    rw [List.forall_mem_cons]
    exact ⟨List.mem_cons_self, fun call hcall => List.mem_cons_of_mem _ (ih call hcall)⟩

theorem AtOnce.receivedBy_first {change : Change} {number : Nat} {numbers : List Nat} {calls : List Call}
    (h : AtOnce change (number :: numbers) calls) (hlater : number ∉ numbers) :
    receivedBy number calls = [change] := by
  cases h with
  | failed => simp [receivedBy]
  | @next _ _ calls h =>
    -- everybody else has another number
    have hnone : calls.filter (·.listener = number) = [] := by
      rw [List.filter_eq_nil_iff]
      intro call hcall
      have hmem := h.listener_mem call hcall
      simpa using ne_of_mem_of_not_mem hmem hlater
    simp [receivedBy, hnone]

/-- Each of some changes is delivered to each of some listeners: the first one receives all of them. -/
theorem receivedBy_flatMap {count : Nat} {changes : List Change} {calls : List Call}
    (h : calls.map (fun call => (call.change, call.listener))
      = changes.flatMap (fun change => (List.range (count + 1)).map (change, ·))) :
    receivedBy 0 calls = changes := by
  have hreceived : receivedBy 0 calls
      = ((calls.map (fun call => (call.change, call.listener))).filter (·.2 = 0)).map (·.1) := by
    rw [List.filter_map, List.map_map]
    rfl
  rw [hreceived, h]
  clear h hreceived
  induction changes with
  | nil => rfl
  | cons change changes ih =>
    rw [List.flatMap_cons, List.filter_append, List.map_append, ih, List.range_succ_eq_map]
    simp [List.filter_map, Function.comp_def]

namespace Change

/-- The snapshots that changes leave, under their identities. -/
def snapshots (changes : List Change) : Int → Option Fact :=
  changes.foldl amend fun _ => none

/-- A new identity is new, and what is replaced or removed is what the changes before have left. -/
def Fits (before : List Change) : Change → Prop
  | .inserted fact => ∀ earlier ∈ before, earlier.fact.id ≠ fact.id
  | .updated fact previous => snapshots before previous.id = some previous
    ∧ fact.id = previous.id ∧ fact.type = previous.type ∧ fact.version = previous.version + 1
  | .retracted fact => snapshots before fact.id = some fact

theorem snapshots_snoc (changes : List Change) (change : Change) :
    snapshots (changes ++ [change]) = change.amend (snapshots changes) := by
  rw [snapshots, List.foldl_append]
  rfl

end Change

namespace FactTable

/-- The changes tell what is in the table. -/
structure ToldBy (table : FactTable) (changes : List Change) : Prop where
  wellFormed : table.WellFormed
  fits : Throughout Change.Fits changes
  snapshots : Change.snapshots changes = table.find?
  below : ∀ change ∈ changes, change.fact.id < table.nextId

theorem toldBy_nil {table : FactTable} (hwell : table.WellFormed) (hlive : table.live = []) :
    table.ToldBy [] := by
  refine ⟨hwell, throughout_nil, ?_, by simp⟩
  funext id
  rw [find?, hlive]
  rfl

section ToldBy

variable {table : FactTable} {changes : List Change} (h : table.ToldBy changes)

include h

theorem ToldBy.fits_of_moves {mutation : Mutation} {outcome : FactTable × Except Fault (Option Change)}
    (hmoves : table.Moves mutation outcome) {change : Change}
    (hmakes : outcome.2.toOption.join = some change) : Change.Fits changes change := by
  cases hmoves with
  | refused | wasted | edge | begun => cases hmakes
  | inserted data fact hid =>
    cases hmakes
    intro earlier hearlier
    -- whatever was told before is of an identity that had been handed out
    have hbelow := h.below earlier hearlier
    omega
  | updated fact previous hmade hprevious hid htype hversion =>
    cases hmakes
    refine ⟨?_, hid, htype, hversion⟩
    rw [h.snapshots]
    exact (find?_eq_some_iff h.wellFormed).mpr ⟨hprevious, rfl⟩
  | retracted ref fact href hfact =>
    cases hmakes
    change Change.snapshots changes fact.id = some fact
    rw [h.snapshots]
    exact (find?_eq_some_iff h.wellFormed).mpr ⟨hfact, rfl⟩

theorem ToldBy.of_moves {mutation : Mutation} {outcome : FactTable × Except Fault (Option Change)}
    (hmoves : table.Moves mutation outcome) :
    outcome.1.ToldBy (changes ++ outcome.2.toOption.join.toList) := by
  have hwell := hmoves.follows.wellFormed h.wellFormed
  have hfind := hmoves.find? h.wellFormed
  have hbelow : ∀ earlier ∈ changes, earlier.fact.id < outcome.1.nextId := by
    intro earlier hearlier
    have hearly := h.below earlier hearlier
    have hnext := hmoves.nextId_le
    omega
  cases hmakes : outcome.2.toOption.join with
  | none =>
    rw [hmakes] at hfind
    rw [Option.toList_none, List.append_nil]
    exact ⟨hwell, h.fits, h.snapshots.trans hfind.symm, hbelow⟩
  | some change =>
    rw [hmakes] at hfind
    rw [Option.toList_some]
    refine ⟨hwell, throughout_snoc.mpr ⟨h.fits, h.fits_of_moves hmoves hmakes⟩, ?_, ?_⟩
    . rw [Change.snapshots_snoc, h.snapshots, hfind]
    . rw [List.forall_mem_append, List.forall_mem_singleton]
      exact ⟨hbelow, hmoves.id_lt h.wellFormed hmakes⟩

theorem ToldBy.used (use : Use σ) :
    (table.used use).1.ToldBy (changes ++ (table.used use).2.toList) := by
  cases use with
  | mutate mutation => exact h.of_moves (table.moves_mutate mutation)
  | subscribe listener =>
    rw [FactTable.used, Option.toList_none, List.append_nil]
    exact h
  | exit own =>
    rw [FactTable.used, Option.toList_none, List.append_nil]
    exact h

end ToldBy
end FactTable

namespace Store

variable {σ : Type} {store : Store (List Call × σ)}

/-- The changes that the first listener has received, or will receive when the blocks are left. -/
def heard (store : Store (List Call × σ)) : List Change :=
  receivedBy 0 store.calls ++ store.pending

/-- Somebody listens. -/
def Attentive (store : Store (List Call × σ)) : Prop :=
  ∃ first others : _, store.listeners = watchFrom 0 (first :: others)

theorem attentive_use (h : store.Attentive) (use : Use σ) : (store.use use).1.Attentive := by
  obtain ⟨first, others, hlisteners⟩ := h
  have huses := store.uses_use use
  generalize store.use use = outcome at huses ⊢
  cases huses with
  | subscribed listener =>
    refine ⟨first, others ++ [listener], ?_⟩
    rw [← List.cons_append, watchFrom_append, Nat.zero_add, subscribe, hlisteners, length_watchFrom]
    rfl
  | entered => exact ⟨first, others, hlisteners⟩
  | left hlevel hused own => exact ⟨first, others, (frame_leave store).2.2.trans hlisteners⟩
  | kept hedge hmakes fault? => exact ⟨first, others, hlisteners⟩
  | changed hedge change hmakes =>
    exact ⟨first, others, (frame_emit _ change).2.2.trans hlisteners⟩

theorem heard_emit (hlisteners : store.Attentive) (hidle : store.Idle) (change : Change) :
    (store.emit change).1.heard = store.heard ++ [change] := by
  obtain ⟨first, others, hlisteners⟩ := hlisteners
  unfold emit heard
  split
  . next hdepth =>
    -- nobody is called before the first listener, so none can keep the change from it
    obtain ⟨calls, hadds, honce, -⟩ := deliver_watched change store.world 0 (first :: others)
    rw [List.length_cons, List.range'_succ] at honce
    have hfirst := honce.receivedBy_first (by simp)
    rw [hlisteners]
    change receivedBy 0 (deliver change store.world _).1.1 ++ store.pending = _
    rw [hadds, receivedBy_append, hfirst, hidle hdepth, List.append_nil, List.append_nil]
    rfl
  . exact (List.append_assoc _ _ _).symm

theorem heard_leave (hlisteners : store.Attentive) : store.leave.1.heard = store.heard := by
  obtain ⟨first, others, hlisteners⟩ := hlisteners
  unfold leave heard
  split
  . obtain ⟨calls, hadds, hmap, -⟩ := flush_watched store.world (first :: others) store.pending
    rw [hlisteners]
    change receivedBy 0 (flush _ store.world store.pending).1.1 ++ [] = _
    rw [hadds, receivedBy_append, receivedBy_flatMap hmap, List.append_nil]
    rfl
  . rfl

theorem heard_use (hlisteners : store.Attentive) (hidle : store.Idle) (use : Use σ) :
    (store.use use).1.heard = store.heard ++ (store.table.used use).2.toList := by
  have huses := store.uses_use use
  generalize store.use use = outcome at huses ⊢
  cases huses with
  | subscribed listener => exact (List.append_nil _).symm
  | entered => exact (List.append_nil _).symm
  | left hlevel hused own =>
    rw [hused, Option.toList_none, List.append_nil]
    exact heard_leave hlisteners
  | @kept mutation hedge hmakes fault? =>
    rw [FactTable.used, hmakes]
    exact (List.append_nil _).symm
  | @changed mutation hedge change hmakes =>
    rw [FactTable.used, hmakes]
    have hmoved : ({ store with table := (store.table.mutate mutation).1 } : Store _).Attentive :=
      hlisteners
    exact heard_emit hmoved hidle change

/-- The first listener is told what is in the table, or will be when the blocks are left. -/
structure Tells (store : Store (List Call × σ)) : Prop where
  told : store.table.ToldBy store.heard
  attentive : store.Attentive
  idle : store.Idle

theorem tells_use (h : store.Tells) (use : Use σ) : (store.use use).1.Tells := by
  refine ⟨?_, attentive_use h.attentive use, idle_use h.idle use⟩
  rw [table_use, heard_use h.attentive h.idle use]
  exact h.told.used use

/-- Nothing has changed yet, and nobody listens. -/
structure Untouched (store : Store (List Call × σ)) : Prop where
  told : store.table.ToldBy []
  listeners : store.listeners = []
  calls : store.calls = []
  pending : store.pending = []

theorem leave_of_pending (h : store.pending = []) :
    store.leave = ({ store with depth := store.depth - 1 }, none) := by
  unfold leave
  split
  . next hdepth =>
    have hzero : store.depth - 1 = 0 := by omega
    rw [h, hzero, ← h]
    simp [flush, h]
  . rfl

theorem untouched_use (h : store.Untouched) {use : Use σ}
    (hsubscribe : ∀ listener, use ≠ .subscribe listener)
    (hmakes : (store.table.used use).2 = none) : (store.use use).1.Untouched := by
  have htold := h.told.used use
  rw [hmakes, ← table_use] at htold
  suffices hquiet : (store.use use).1.listeners = [] ∧ (store.use use).1.calls = []
      ∧ (store.use use).1.pending = [] from ⟨htold, hquiet.1, hquiet.2.1, hquiet.2.2⟩
  clear htold
  have huses := store.uses_use use
  generalize store.use use = outcome at huses ⊢
  cases huses with
  | subscribed listener => exact absurd rfl (hsubscribe listener)
  | entered => exact ⟨h.listeners, h.calls, h.pending⟩
  | left hlevel hused own =>
    rw [exit, leave_of_pending h.pending]
    exact ⟨h.listeners, h.calls, h.pending⟩
  | kept hedge hnone fault? => exact ⟨h.listeners, h.calls, h.pending⟩
  | changed hedge change hchange =>
    rw [FactTable.used, hchange] at hmakes
    cases hmakes

theorem untouched_useAll (h : store.Untouched) {uses : List (Use σ)}
    (hsubscribe : ∀ listener, .subscribe listener ∉ uses) (hemitted : store.table.emitted uses = []) :
    (store.useAll uses).Untouched := by
  induction uses generalizing store with
  | nil => exact h
  | cons use uses ih =>
    rw [FactTable.emitted, List.append_eq_nil_iff, Option.toList_eq_nil_iff, ← table_use] at hemitted
    have hfirst : ∀ listener, use ≠ .subscribe listener := by
      rintro listener rfl
      exact hsubscribe listener List.mem_cons_self
    have hlater : ∀ listener, .subscribe listener ∉ uses := by
      intro listener hmem
      exact hsubscribe listener (List.mem_cons_of_mem _ hmem)
    exact ih (untouched_use h hfirst hemitted.1) hlater hemitted.2

/-- What the first listener has received tells what is in the store, whenever no block is open. -/
structure Reflected (store : Store (List Call × σ)) : Prop where
  /-- Each change fits those that were received before it. -/
  fits : Throughout Change.Fits (receivedBy 0 store.calls)
  /-- The snapshots that are left are the live facts. -/
  live : store.depth = 0 → ∀ id fact,
    Change.snapshots (receivedBy 0 store.calls) id = some fact ↔ fact ∈ store.table.live ∧ fact.id = id

/--
A listener that subscribes before anybody else, and before anything has changed, can tell the live facts from
what it receives, whatever is done with the store and whoever else listens.
-/
theorem reflected_first (declared : Option (List FactType)) (world : σ) {before : List (Use σ)}
    (hsubscribe : ∀ listener, .subscribe listener ∉ before)
    (hemitted : ({ declared } : FactTable).emitted before = []) (first : Listener σ)
    (later : List (Use σ)) :
    ((fresh declared world).useAll (before ++ .subscribe first :: later)).Reflected := by
  have hfresh : (fresh declared world).Untouched := by
    refine ⟨FactTable.toldBy_nil ⟨List.nodup_nil, ?_⟩ rfl, rfl, rfl, rfl⟩
    intro fact hfact
    cases hfact
  have hbefore := untouched_useAll hfresh hsubscribe hemitted
  rw [useAll_append]
  generalize (fresh declared world).useAll before = store at hbefore ⊢
  have hfirst : (store.use (.subscribe first)).1.Tells := by
    refine ⟨?_, ⟨first, [], ?_⟩, fun _ => hbefore.pending⟩
    . have hheard : (store.use (.subscribe first)).1.heard = [] := by
        change receivedBy 0 store.calls ++ store.pending = []
        rw [hbefore.calls, hbefore.pending]
        rfl
      rw [hheard]
      exact hbefore.told
    . change store.listeners ++ [first.watched store.listeners.length] = _
      rw [hbefore.listeners]
      rfl
  -- from the subscription on, what is received and what is queued together tell the table
  have htells : (store.useAll (.subscribe first :: later)).Tells :=
    useAll_induction (motive := Tells) (fun _ use h => tells_use h use) hfirst later
  generalize store.useAll (.subscribe first :: later) = last at htells ⊢
  constructor
  . rintro earlier change after heq
    apply htells.told.fits earlier change (after ++ last.pending)
    rw [heard, heq, List.append_assoc]
    rfl
  . intro hdepth id fact
    have hheard : last.heard = receivedBy 0 last.calls := by
      rw [heard, htells.idle hdepth, List.append_nil]
    rw [← hheard, htells.told.snapshots]
    exact FactTable.find?_eq_some_iff htells.told.wellFormed

/-- In a block, one fact is inserted and updated twice, and another one is inserted and retracted. -/
def revisingUses : List (Use Unit) :=
  [.mutate (.insert (.text "item") .null), .mutate (.insert (.text "item") .null), .subscribe refusing,
    .mutate (.update (.int 1) (.record [("n", .int 1)])), .mutate (.retract (.int 2)),
    .mutate (.modify (.int 1) [("n", .int 2)]), .mutate (.retract (.int 2)), .exit none]

/-- The first listener has subscribed in the block, and never fails. -/
def revisedStore : Store (List Call × Unit) :=
  (fresh none ()).useAll ([.mutate .enter] ++ .subscribe (fun _ world => (world, none)) :: revisingUses)

theorem reflected_first_revised : revisedStore.Reflected ∧ revisedStore.depth = 0
    ∧ revisedStore.table.live.map (fun fact => (fact.id, fact.version)) = [(1, 3)] :=
  ⟨reflected_first none () (by simp) (by rfl) _ _, by rfl, by rfl⟩

end Store
end ForwardChaining
