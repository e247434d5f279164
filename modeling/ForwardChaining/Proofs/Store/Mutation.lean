import ForwardChaining.Proofs.Fact.Change
import ForwardChaining.Proofs.Store.Log
import Mathlib.Logic.Function.Basic

/-!
This module contains what one operation does to a store, apart from its listeners: the table it leads to, and
the change that is emitted, if there is one. What a table looks up afterwards is told by that change.
-/

namespace ForwardChaining

namespace FactTable

/--
The table after an operation, and the change that the operation makes, or the fault with which it is
refused. The edges of blocks and the beginning of a cycle make no change.
-/
def mutate (table : FactTable) : Mutation → FactTable × Except Fault (Option Change)
  | .insert tag data =>
    match data.toEntriesOrEmpty with
    | .error fault => (table, .error fault)
    | .ok entries => made .inserted (table.insert tag entries)
  | .update ref data =>
    match table.get ref, data.toEntries with
    | .error fault, _ => (table, .error fault)
    | .ok _, .error fault => (table, .error fault)
    | .ok _, .ok entries => made replaced (table.update ref entries)
  | .modify ref changes =>
    match changes.requireFree "FactStore.modify" ["self", "fact_id"], table.get ref with
    | .error fault, _ => (table, .error fault)
    | .ok _, .error fault => (table, .error fault)
    | .ok _, .ok previous =>
      made replaced
        (table.update ref (Entries.merge previous.data (Entries.ofFields changes)))
  | .retract ref => made .retracted (table.retract ref)
  | .enter | .leave => (table, .ok none)
  | .beginCycle => (table.beginCycle, .ok none)
where
  /-- The change from one snapshot to the next. -/
  replaced (snapshots : Fact × Fact) : Change :=
    .updated snapshots.1 snapshots.2
  /-- The change in the place of what the table tells about it. -/
  made {α : Type} (change : α → Change) :
      FactTable × Except Fault α → FactTable × Except Fault (Option Change)
    | (table, .ok a) => (table, .ok (some (change a)))
    | (table, .error fault) => (table, .error fault)

/-- The change that an operation makes, if it makes one. -/
def makes (table : FactTable) (mutation : Mutation) : Option Change :=
  (table.mutate mutation).2.toOption.join

end FactTable

/-- The operation makes such a change, of the fact that it names. -/
def Change.MadeBy (change : Change) : Mutation → Prop
  | .insert tag _ => ∃ fact, change = .inserted fact ∧ tag = .text fact.type
  | .update ref _ | .modify ref _ =>
    ∃ fact previous, change = .updated fact previous ∧ ref.integer? = some fact.id
  | .retract ref => ∃ fact, change = .retracted fact ∧ ref.integer? = some fact.id
  | .enter | .leave | .beginCycle => False

namespace FactTable

/-- All that an operation can do to a table. -/
inductive Moves (table : FactTable) : Mutation → FactTable × Except Fault (Option Change) → Prop where
  | refused {mutation : Mutation} (hmutation : mutation ≠ .beginCycle) (fault : Fault) :
      Moves table mutation (table, .error fault)
  /-- An identity and a stamp are used up, but there is no fact. -/
  | wasted (tag data : Value) (fault : Fault) :
      Moves table (.insert tag data) (table.advance, .error fault)
  | inserted (data : Value) (fact : Fact) (hid : fact.id = table.nextId)
      (hversion : fact.version = 1) (hrecency : fact.recency = table.clock + 1)
      (haccepted : table.requireDeclared (.text fact.type) fact.data = .ok ()) :
      Moves table (.insert (.text fact.type) data) ({ table.advance with
        live := table.live ++ [fact]
        index := table.index.add fact.type fact.id }, .ok (some (.inserted fact)))
  | updated {mutation : Mutation} (fact previous : Fact)
      (hmade : (Change.updated fact previous).MadeBy mutation)
      (hprevious : previous ∈ table.live) (hid : fact.id = previous.id)
      (htype : fact.type = previous.type) (hversion : fact.version = previous.version + 1)
      (hrecency : fact.recency = table.clock + 1)
      (haccepted : table.requireDeclared (.text fact.type) fact.data = .ok ()) :
      Moves table mutation
        ({ table with live := replace fact table.live, clock := table.clock + 1 },
          .ok (some (.updated fact previous)))
  | retracted (ref : Value) (fact : Fact) (href : ref.integer? = some fact.id)
      (hfact : fact ∈ table.live) :
      Moves table (.retract ref) ({ table with
        live := without fact.id table.live
        index := table.index.remove fact.type fact.id
        retracted := fact.id :: table.retracted }, .ok (some (.retracted fact)))
  | edge {mutation : Mutation} (hmutation : mutation ≠ .beginCycle) :
      Moves table mutation (table, .ok none)
  | begun : Moves table .beginCycle (table.beginCycle, .ok none)

theorem integer?_of_get {table : FactTable} {ref : Value} {fact : Fact} (h : table.get ref = .ok fact) :
    ref.integer? = some fact.id := by
  obtain ⟨id, hid, hfind⟩ := find?_of_get h
  have hsame : fact.id = id := by simpa using List.find?_some hfind
  rw [hid, hsame]

theorem moves_update (table : FactTable) {mutation : Mutation} (hmutation : mutation ≠ .beginCycle)
    {ref : Value} (hmade : ∀ fact previous : Fact, ref.integer? = some fact.id →
      (Change.updated fact previous).MadeBy mutation) (entries : Entries) :
    table.Moves mutation (mutate.made mutate.replaced (table.update ref entries)) := by
  unfold update
  split
  . exact .refused hmutation _
  next previous hget =>
  split
  . exact .refused hmutation _
  . next haccepted =>
    have href : ref.integer? = some previous.id := integer?_of_get hget
    exact .updated _ previous (hmade _ previous href) (mem_of_get hget) rfl rfl rfl rfl haccepted

theorem moves_mutate (table : FactTable) (mutation : Mutation) :
    table.Moves mutation (table.mutate mutation) := by
  cases mutation with
  | insert tag data =>
    have hmutation : Mutation.insert tag data ≠ .beginCycle := nofun
    simp only [mutate]
    split
    . exact .refused hmutation _
    next entries _ =>
    unfold insert
    split
    . exact .refused hmutation _
    next haccepted =>
    -- unless types are declared, an identity is used up before the type turns out not to be a text
    split
    . next type =>
      exact .inserted data ⟨table.nextId, type, entries, 1, table.clock + 1⟩ rfl rfl rfl haccepted
    . split
      . exact .wasted _ data _
      . exact .refused hmutation _
  | update ref data =>
    have hmutation : Mutation.update ref data ≠ .beginCycle := nofun
    simp only [mutate]
    split
    . exact .refused hmutation _
    . exact .refused hmutation _
    . exact table.moves_update hmutation (fun fact previous href => ⟨fact, previous, rfl, href⟩) _
  | modify ref changes =>
    have hmutation : Mutation.modify ref changes ≠ .beginCycle := nofun
    simp only [mutate]
    split
    . exact .refused hmutation _
    . exact .refused hmutation _
    . exact table.moves_update hmutation (fun fact previous href => ⟨fact, previous, rfl, href⟩) _
  | retract ref =>
    have hmutation : Mutation.retract ref ≠ .beginCycle := nofun
    simp only [mutate, retract]
    split
    . exact .refused hmutation _
    . next hget => exact .retracted ref _ (integer?_of_get hget) (mem_of_get hget)
  | enter => exact .edge nofun
  | leave => exact .edge nofun
  | beginCycle => exact .begun

theorem Moves.follows {table : FactTable} {mutation : Mutation}
    {outcome : FactTable × Except Fault (Option Change)} (h : table.Moves mutation outcome) :
    table.Follows outcome.1 outcome.2.toOption.join := by
  cases h with
  | refused => exact table.follows_refl
  | wasted =>
    refine ⟨rfl, ?_, ?_⟩
    . simp only [advance]
      omega
    . simp only [advance]
      omega
  | inserted data fact hid hversion hrecency =>
    exact ⟨hid, rfl, rfl, hrecency, rfl⟩
  | updated fact previous hmade hprevious hid htype hversion hrecency =>
    exact ⟨hprevious, hid, htype, rfl, rfl, hrecency, rfl⟩
  | retracted ref fact href hfact => exact ⟨hfact, rfl, rfl, rfl⟩
  | edge => exact table.follows_refl
  | begun => exact ⟨rfl, Int.le_refl _, Int.le_refl _⟩

theorem Moves.madeBy {table : FactTable} {mutation : Mutation}
    {outcome : FactTable × Except Fault (Option Change)} (h : table.Moves mutation outcome)
    {change : Change} (hchange : outcome.2.toOption.join = some change) : change.MadeBy mutation := by
  cases h with
  | refused | wasted | edge | begun => cases hchange
  | inserted data fact =>
    cases hchange
    exact ⟨fact, rfl, rfl⟩
  | updated fact previous hmade =>
    cases hchange
    exact hmade
  | retracted ref fact href =>
    cases hchange
    exact ⟨fact, rfl, href⟩

theorem Moves.nextId_le {table : FactTable} {mutation : Mutation}
    {outcome : FactTable × Except Fault (Option Change)} (h : table.Moves mutation outcome) :
    table.nextId ≤ outcome.1.nextId := by
  cases h with
  | wasted | inserted =>
    simp only [advance]
    omega
  | _ => exact Int.le_refl _

theorem Moves.id_lt {table : FactTable} (hwell : table.WellFormed) {mutation : Mutation}
    {outcome : FactTable × Except Fault (Option Change)} (h : table.Moves mutation outcome)
    {change : Change} (hchange : outcome.2.toOption.join = some change) :
    change.fact.id < outcome.1.nextId := by
  cases h with
  | refused | wasted | edge | begun => cases hchange
  | inserted data fact hid =>
    cases hchange
    simp only [Change.fact, advance]
    omega
  | updated fact previous hmade hprevious hid =>
    cases hchange
    exact hid ▸ hwell.below previous hprevious
  | retracted ref fact href hfact =>
    cases hchange
    exact hwell.below fact hfact

/-! ### Looking facts up -/

theorem find?_eq_some_iff {table : FactTable} (h : table.WellFormed) {id : Int} {fact : Fact} :
    table.find? id = some fact ↔ fact ∈ table.live ∧ fact.id = id := by
  unfold find?
  constructor
  . intro hfound
    exact ⟨List.mem_of_find?_eq_some hfound, by simpa using List.find?_some hfound⟩
  . rintro ⟨hfact, rfl⟩
    cases hfound : table.live.find? (·.id = fact.id) with
    | none =>
      rw [List.find?_eq_none] at hfound
      have hnot := hfound fact hfact
      simp at hnot
    | some other =>
      have hid : other.id = fact.id := by simpa using List.find?_some hfound
      rw [h.eq_of_id hfact (List.mem_of_find?_eq_some hfound) hid]

theorem find?_eq_none_iff {table : FactTable} {id : Int} :
    table.find? id = none ↔ Unused id table.live := by
  unfold find? Unused
  rw [List.find?_eq_none]
  simp

end FactTable

namespace Change

/-- The facts under their identities, after the change. -/
def amend (facts : Int → Option Fact) : Change → Int → Option Fact
  | .inserted fact => Function.update facts fact.id (some fact)
  | .updated fact _ => Function.update facts fact.id (some fact)
  | .retracted fact => Function.update facts fact.id none

end Change

namespace FactTable

theorem find?_replace {table : FactTable} (h : table.WellFormed) {fact previous : Fact}
    (hprevious : previous ∈ table.live) (hid : fact.id = previous.id) (id : Int) :
    (replace fact table.live).find? (·.id = id)
      = if id = fact.id then some fact else table.find? id := by
  have hids : ∀ old : Fact, (if old.id = fact.id then fact else old).id = old.id := by
    intro old
    split
    . next heq => exact heq.symm
    . rfl
  unfold replace find?
  rw [List.find?_map]
  simp only [Function.comp_def, hids]
  split
  . next heq =>
    have hfound := (find?_eq_some_iff h).mpr ⟨hprevious, heq.symm ▸ hid.symm⟩
    unfold find? at hfound
    rw [hfound, Option.map_some, if_pos hid.symm]
  . next hne =>
    cases hfound : table.live.find? (·.id = id) with
    | none => rfl
    | some old =>
      have hold : old.id = id := by simpa using List.find?_some hfound
      rw [Option.map_some, if_neg (hold ▸ hne)]

theorem Moves.find? {table : FactTable} (hwell : table.WellFormed) {mutation : Mutation}
    {outcome : FactTable × Except Fault (Option Change)} (h : table.Moves mutation outcome) :
    outcome.1.find? = match outcome.2.toOption.join with
      | none => table.find?
      | some change => change.amend table.find? := by
  funext id
  cases h with
  | refused => rfl
  | wasted => rfl
  | edge => rfl
  | begun => rfl
  | inserted data fact hid =>
    simp only [Except.toOption, Option.join_some, Change.amend]
    rw [Function.update_apply]
    unfold FactTable.find?
    rw [List.find?_append]
    split
    . next heq =>
      -- the identity is new, so the fact at the end is the first that is found
      have hnone : table.find? id = none := by
        rw [find?_eq_none_iff]
        intro other hother hsame
        have hbelow := hwell.below other hother
        omega
      unfold FactTable.find? at hnone
      rw [hnone]
      simp [heq]
    . next hne => simp [Ne.symm hne]
  | updated fact previous hmade hprevious hid =>
    simp only [Except.toOption, Option.join_some, Change.amend]
    rw [Function.update_apply]
    exact find?_replace hwell hprevious hid id
  | retracted ref fact href hfact =>
    simp only [Except.toOption, Option.join_some, Change.amend]
    rw [Function.update_apply]
    unfold FactTable.find? without
    rw [List.find?_filter]
    split
    . next heq =>
      rw [List.find?_eq_none]
      simp [heq]
    . next hne =>
      apply congrArg (List.find? · table.live)
      funext other
      by_cases hother : other.id = id <;> simp [hother, hne]

end FactTable

/-- What an operation returns. -/
inductive Mutation.Answer where
  | identity (id : Int)
  | snapshot (fact : Fact)
  | nothing

/-- What the operation returns that has made the change. -/
def Change.answer : Change → Mutation.Answer
  | .inserted fact => .identity fact.id
  | .updated fact _ => .snapshot fact
  | .retracted fact => .snapshot fact

namespace Store

variable {σ : Type}

/-- What is given back at the end of a block. -/
def ended : Store σ × Option Fault → Store σ × Except Fault Mutation.Answer
  | (store, none) => (store, .ok .nothing)
  | (store, some fault) => (store, .error fault)

/-- The store after an operation, and what the operation returns or raises. -/
def operate (store : Store σ) : Mutation → Store σ × Except Fault Mutation.Answer
  | .insert tag data => (store.insert tag data).map id (·.map .identity)
  | .update ref data => (store.update ref data).map id (·.map .snapshot)
  | .modify ref changes => (store.modify ref changes).map id (·.map .snapshot)
  | .retract ref => (store.retract ref).map id (·.map .snapshot)
  | .enter => (store.enter, .ok .nothing)
  | .leave => ended store.leave
  | .beginCycle => (store.beginCycle, .ok .nothing)

/-- The store with what an operation has made of its table. -/
def carryOut (store : Store σ) :
    FactTable × Except Fault (Option Change) → Store σ × Except Fault Mutation.Answer
  | (table, .ok (some change)) => ({ store with table } : Store σ).publish change change.answer
  | (table, .ok none) => ({ store with table }, .ok .nothing)
  | (table, .error fault) => ({ store with table }, .error fault)

end Store

/-- The operation opens or closes a deferred block. -/
def Mutation.IsEdge : Mutation → Prop
  | .enter | .leave => True
  | _ => False

theorem FactTable.mutate_of_makes {table : FactTable} {mutation : Mutation} {change : Change}
    (h : table.makes mutation = some change) :
    table.mutate mutation = ((table.mutate mutation).1, .ok (some change)) := by
  unfold makes at h
  cases houtcome : table.mutate mutation with
  | mk table' outcome =>
    rw [houtcome] at h
    match outcome with
    | .ok (some other) =>
      cases h
      rfl
    | .ok none => cases h
    | .error fault => cases h

theorem FactTable.makes_edge {table : FactTable} {mutation : Mutation} (h : mutation.IsEdge) :
    table.makes mutation = none := by
  cases mutation with
  | enter | leave => rfl
  | _ => cases h

namespace Store

variable {σ : Type}

theorem map_publish {α β : Type} (store : Store σ) (change : Change) (a : α) (f : α → β) :
    (store.publish change a).map id (·.map f) = store.publish change (f a) := by
  unfold publish
  split <;> rfl

theorem operate_replaceData (store : Store σ) (ref : Value) (entries : Entries) :
    (store.replaceData ref entries).map id (·.map .snapshot)
      = store.carryOut (FactTable.mutate.made FactTable.mutate.replaced
        (store.table.update ref entries)) := by
  unfold replaceData
  cases store.table.update ref entries with
  | mk table outcome =>
    cases outcome with
    | error fault => rfl
    | ok snapshots => exact map_publish _ _ _ _

theorem operate_eq (store : Store σ) {mutation : Mutation} (h : ¬ mutation.IsEdge) :
    store.operate mutation = store.carryOut (store.table.mutate mutation) := by
  cases mutation with
  | insert tag data =>
    simp only [operate, insert, FactTable.mutate]
    cases data.toEntriesOrEmpty with
    | error fault => rfl
    | ok entries =>
      dsimp only
      cases store.table.insert tag entries with
      | mk table outcome =>
        cases outcome with
        | error fault => rfl
        | ok fact => exact map_publish _ _ _ _
  | update ref data =>
    simp only [operate, update, FactTable.mutate]
    cases store.table.get ref with
    | error fault => rfl
    | ok previous =>
      cases data.toEntries with
      | error fault => rfl
      | ok entries => exact operate_replaceData store ref entries
  | modify ref changes =>
    simp only [operate, modify, FactTable.mutate]
    cases changes.requireFree "FactStore.modify" ["self", "fact_id"] with
    | error fault => rfl
    | ok free =>
      cases store.table.get ref with
      | error fault => rfl
      | ok previous => exact operate_replaceData store ref _
  | retract ref =>
    simp only [operate, retract, FactTable.mutate]
    cases store.table.retract ref with
    | mk table outcome =>
      cases outcome with
      | error fault => rfl
      | ok fact => exact map_publish _ _ _ _
  | enter => exact absurd trivial h
  | leave => exact absurd trivial h
  | beginCycle => rfl

theorem table_publish {α : Type} (store : Store σ) (change : Change) (result : α) :
    (store.publish change result).1.table = store.table := by
  rw [fst_publish, emit]
  split <;> rfl

theorem settle_map {α β : Type} (outcome : Store σ × Except Fault α) (f : α → β) :
    apply.settle (outcome.map id (·.map f)) = apply.settle outcome := by
  obtain ⟨store, _ | _⟩ := outcome <;> rfl

theorem settle_ended (outcome : Store σ × Option Fault) : apply.settle (ended outcome) = outcome := by
  obtain ⟨store, _ | _⟩ := outcome <;> rfl

theorem settle_operate (store : Store σ) (mutation : Mutation) :
    apply.settle (store.operate mutation) = store.apply mutation := by
  cases mutation with
  | leave => exact settle_ended store.leave
  | enter | beginCycle => rfl
  | _ => exact settle_map _ _

theorem apply_of_makes {store : Store σ} {mutation : Mutation} {change : Change}
    (h : store.table.makes mutation = some change) : store.apply mutation
      = ({ store with table := (store.table.mutate mutation).1 } : Store σ).emit change := by
  have hedge : ¬ mutation.IsEdge := by
    intro hedge
    rw [FactTable.makes_edge hedge] at h
    cases h
  rw [← settle_operate, operate_eq store hedge, FactTable.mutate_of_makes h]
  exact settle_publish _ _ _

/-- An operation that makes no change leaves all but the table as it is, unless it is at an edge. -/
theorem apply_of_makes_none {store : Store σ} {mutation : Mutation} (hedge : ¬ mutation.IsEdge)
    (h : store.table.makes mutation = none) : ∃ fault?, store.apply mutation
      = ({ store with table := (store.table.mutate mutation).1 }, fault?) := by
  rw [← settle_operate, operate_eq store hedge]
  unfold FactTable.makes at h
  cases houtcome : store.table.mutate mutation with
  | mk table outcome =>
    rw [houtcome] at h
    match outcome with
    | .ok (some other) => cases h
    | .ok none => exact ⟨none, rfl⟩
    | .error fault => exact ⟨some fault, rfl⟩

theorem fst_apply (store : Store σ) {mutation : Mutation} (hedge : ¬ mutation.IsEdge) :
    (store.apply mutation).1
      = store.after (store.table.mutate mutation).1 (store.table.makes mutation) := by
  cases hmakes : store.table.makes mutation with
  | none =>
    obtain ⟨fault?, heq⟩ := apply_of_makes_none hedge hmakes
    rw [heq]
    rfl
  | some change =>
    rw [apply_of_makes hmakes]
    rfl

theorem table_apply (store : Store σ) {mutation : Mutation} (hedge : ¬ mutation.IsEdge) :
    (store.apply mutation).1.table = (store.table.mutate mutation).1 := by
  rw [fst_apply store hedge]
  unfold after emit
  split
  . rfl
  . split <;> rfl

theorem depth_apply (store : Store σ) {mutation : Mutation} (hedge : ¬ mutation.IsEdge) :
    (store.apply mutation).1.depth = store.depth := by
  rw [fst_apply store hedge]
  unfold after emit
  split
  . rfl
  . split <;> rfl

end Store
end ForwardChaining
