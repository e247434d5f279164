import ForwardChaining.Proofs.Store.Table
import ForwardChaining.Store.Basic

/-!
This module contains the changes that a store delivers, as a log. What a listener makes of them depends
on nothing else, and the log tells what the live facts are, up to the changes that are still queued.
-/

namespace ForwardChaining

/-- An operation on a fact store. -/
inductive Mutation where
  | insert (tag data : Value)
  | update (ref data : Value)
  | modify (ref : Value) (changes : Fields)
  | retract (ref : Value)
  /-- Open a deferred block. -/
  | enter
  /-- Close the innermost deferred block. -/
  | leave
  | beginCycle

/-- A listener that keeps what is delivered to it, and never fails. -/
def recorder : Listener (List Change) :=
  fun change log => (log ++ [change], none)

/-- What a listener makes of some changes. -/
def Listener.follow (listener : Listener σ) (world : σ) (changes : List Change) : σ :=
  changes.foldl (fun world change => (listener change world).1) world

theorem Listener.follow_append (listener : Listener σ) (world : σ) (changes more : List Change) :
    listener.follow world (changes ++ more) = listener.follow (listener.follow world changes) more :=
  List.foldl_append

namespace Store

variable {σ : Type}

/-- The store and the fault after an operation. -/
def apply (store : Store σ) : Mutation → Store σ × Option Fault
  | .insert tag data => settle (store.insert tag data)
  | .update ref data => settle (store.update ref data)
  | .modify ref changes => settle (store.modify ref changes)
  | .retract ref => settle (store.retract ref)
  | .enter => (store.enter, none)
  | .leave => store.leave
  | .beginCycle => (store.beginCycle, none)
where
  /-- The fault, if there is one. -/
  settle {α : Type} : Store σ × Except Fault α → Store σ × Option Fault
    | (store, .ok _) => (store, none)
    | (store, .error fault) => (store, some fault)

/-- The store after some operations. Those that fail do not end them. -/
def applyAll (store : Store σ) (mutations : List Mutation) : Store σ :=
  mutations.foldl (fun store mutation => (store.apply mutation).1) store

@[simp]
theorem fst_settle {α : Type} (outcome : Store σ × Except Fault α) :
    (apply.settle outcome).1 = outcome.1 := by
  obtain ⟨store, _ | _⟩ := outcome <;> rfl

theorem publish_deferred {store : Store σ} (hdepth : store.depth ≠ 0) (change : Change) (result : α) :
    store.publish change result = ({ store with pending := store.pending ++ [change] }, .ok result) := by
  unfold publish emit
  rw [if_neg hdepth]

/-- The store with another table, after the change that led to it was emitted. -/
def after (store : Store σ) (table : FactTable) : Option Change → Store σ
  | none => { store with table }
  | some change => ({ store with table }.emit change).1

@[simp]
theorem fst_publish (store : Store σ) (change : Change) (result : α) :
    (store.publish change result).1 = (store.emit change).1 := by
  unfold publish
  split
  . next heq => rw [heq]
  . next heq => rw [heq]

/--
A store with this table does an operation as the table does it, whoever listens: it fails, or it makes a
change and publishes it.
-/
def Operates (table : FactTable) {α : Type} (f : {σ : Type} → Store σ → Store σ × Except Fault α) :
    Prop :=
  ∃ table', (∃ fault, table.Follows table' none
      ∧ ∀ (σ : Type) (store : Store σ), store.table = table →
        f store = ({ store with table := table' }, .error fault))
    ∨ ∃ change result, table.Follows table' (some change)
      ∧ ∀ (σ : Type) (store : Store σ), store.table = table →
        f store = ({ store with table := table' } : Store σ).publish change result

theorem operates_insert (table : FactTable) (tag data : Value) :
    Operates table fun store => store.insert tag data := by
  cases hdata : data.toEntriesOrEmpty with
  | error fault =>
    refine ⟨table, .inl ⟨fault, table.follows_refl, ?_⟩⟩
    rintro σ store rfl
    simp only [insert, hdata]
  | ok entries =>
    obtain ⟨table', ⟨fault, heq, hfollows⟩ | ⟨fact, heq, hfollows⟩⟩ :=
      table.follows_insert tag entries
    . refine ⟨table', .inl ⟨fault, hfollows, ?_⟩⟩
      rintro σ store rfl
      simp only [insert, hdata, heq]
    . refine ⟨table', .inr ⟨_, fact.id, hfollows, ?_⟩⟩
      rintro σ store rfl
      simp only [insert, hdata, heq]

theorem operates_replaceData (table : FactTable) (ref : Value) (entries : Entries) :
    Operates table fun store => store.replaceData ref entries := by
  obtain ⟨table', ⟨fault, heq, hfollows⟩ | ⟨fact, previous, heq, hfollows⟩⟩ :=
    table.follows_update ref entries
  . refine ⟨table', .inl ⟨fault, hfollows, ?_⟩⟩
    rintro σ store rfl
    simp only [replaceData, heq]
  . refine ⟨table', .inr ⟨_, fact, hfollows, ?_⟩⟩
    rintro σ store rfl
    simp only [replaceData, heq]

theorem operates_refused {table : FactTable} (fault : Fault)
    {f : {σ : Type} → Store σ → Store σ × Except Fault α}
    (h : ∀ (σ : Type) (store : Store σ), store.table = table → f store = (store, .error fault)) :
    Operates table f := by
  refine ⟨table, .inl ⟨fault, table.follows_refl, ?_⟩⟩
  rintro σ store rfl
  exact h σ store rfl

theorem Operates.congr {table : FactTable} {f g : {σ : Type} → Store σ → Store σ × Except Fault α}
    (h : Operates table g)
    (heq : ∀ (σ : Type) (store : Store σ), store.table = table → f store = g store) :
    Operates table f := by
  obtain ⟨table', ⟨fault, hfollows, hg⟩ | ⟨change, result, hfollows, hg⟩⟩ := h
  . exact ⟨table', .inl ⟨fault, hfollows,
      fun σ store hstore => (heq σ store hstore).trans (hg σ store hstore)⟩⟩
  . exact ⟨table', .inr ⟨change, result, hfollows,
      fun σ store hstore => (heq σ store hstore).trans (hg σ store hstore)⟩⟩

theorem operates_update (table : FactTable) (ref data : Value) :
    Operates table fun store => store.update ref data := by
  cases hget : table.get ref with
  | error fault =>
    apply operates_refused fault
    rintro σ store rfl
    simp only [update, hget]
  | ok previous =>
    cases hdata : data.toEntries with
    | error fault =>
      apply operates_refused fault
      rintro σ store rfl
      simp only [update, hget, hdata]
    | ok entries =>
      apply (operates_replaceData table ref entries).congr
      rintro σ store rfl
      simp only [update, hget, hdata]

theorem operates_modify (table : FactTable) (ref : Value) (changes : Fields) :
    Operates table fun store => store.modify ref changes := by
  cases hfree : changes.requireFree "FactStore.modify" ["self", "fact_id"] with
  | error fault =>
    apply operates_refused fault
    rintro σ store rfl
    simp only [modify, hfree]
  | ok free =>
    cases hget : table.get ref with
    | error fault =>
      apply operates_refused fault
      rintro σ store rfl
      simp only [modify, hfree, hget]
    | ok previous =>
      apply (operates_replaceData table ref
        (Entries.merge previous.data (Entries.ofFields changes))).congr
      rintro σ store rfl
      simp only [modify, hfree, hget]

theorem operates_retract (table : FactTable) (ref : Value) :
    Operates table fun store => store.retract ref := by
  obtain ⟨table', ⟨fault, heq, hfollows⟩ | ⟨fact, heq, hfollows⟩⟩ := table.follows_retract ref
  . refine ⟨table', .inl ⟨fault, hfollows, ?_⟩⟩
    rintro σ store rfl
    simp only [retract, heq]
  . refine ⟨table', .inr ⟨_, fact, hfollows, ?_⟩⟩
    rintro σ store rfl
    simp only [retract, heq]

theorem Operates.fst {table : FactTable} {f : {σ : Type} → Store σ → Store σ × Except Fault α}
    (h : Operates table f) : ∃ table' change?, table.Follows table' change?
      ∧ ∀ (σ : Type) (store : Store σ), store.table = table →
        (f store).1 = store.after table' change? := by
  obtain ⟨table', ⟨fault, hfollows, heq⟩ | ⟨change, result, hfollows, heq⟩⟩ := h
  . refine ⟨table', none, hfollows, ?_⟩
    intro σ store hstore
    exact congrArg Prod.fst (heq σ store hstore)
  . refine ⟨table', some change, hfollows, ?_⟩
    intro σ store hstore
    exact (congrArg Prod.fst (heq σ store hstore)).trans (fst_publish _ _ _)

theorem apply_cases (mutation : Mutation) (table : FactTable) :
    (∃ table' change?, table.Follows table' change? ∧ ∀ (σ : Type) (store : Store σ),
        store.table = table → (store.apply mutation).1 = store.after table' change?)
      ∨ (∀ (σ : Type) (store : Store σ), (store.apply mutation).1 = store.enter)
      ∨ ∀ (σ : Type) (store : Store σ), (store.apply mutation).1 = store.leave.1 := by
  cases mutation with
  | insert tag data =>
    left
    obtain ⟨table', change?, hfollows, heq⟩ := (operates_insert table tag data).fst
    exact ⟨table', change?, hfollows, fun σ store h => (fst_settle _).trans (heq σ store h)⟩
  | update ref data =>
    left
    obtain ⟨table', change?, hfollows, heq⟩ := (operates_update table ref data).fst
    exact ⟨table', change?, hfollows, fun σ store h => (fst_settle _).trans (heq σ store h)⟩
  | modify ref changes =>
    left
    obtain ⟨table', change?, hfollows, heq⟩ := (operates_modify table ref changes).fst
    exact ⟨table', change?, hfollows, fun σ store h => (fst_settle _).trans (heq σ store h)⟩
  | retract ref =>
    left
    obtain ⟨table', change?, hfollows, heq⟩ := (operates_retract table ref).fst
    exact ⟨table', change?, hfollows, fun σ store h => (fst_settle _).trans (heq σ store h)⟩
  | enter => exact .inr (.inl fun _ _ => rfl)
  | leave => exact .inr (.inr fun _ _ => rfl)
  | beginCycle =>
    refine .inl ⟨table.beginCycle, none, ⟨rfl, Int.le_refl _, Int.le_refl _⟩, ?_⟩
    rintro σ store rfl
    rfl

theorem settle_publish {α : Type} (store : Store σ) (change : Change) (result : α) :
    apply.settle (store.publish change result) = store.emit change := by
  unfold publish
  split
  . next heq => exact heq.symm
  . next heq => exact heq.symm

/-- An operation changes nothing but the table, or emits a change of it, or is at the edge of a block. -/
theorem apply_eq (mutation : Mutation) (store : Store σ) :
    (∃ table' fault?, store.table.Follows table' none
        ∧ store.apply mutation = ({ store with table := table' }, fault?))
      ∨ (∃ table' change, store.table.Follows table' (some change)
        ∧ store.apply mutation = ({ store with table := table' } : Store σ).emit change)
      ∨ store.apply mutation = (store.enter, none) ∨ store.apply mutation = store.leave := by
  have hsettle : ∀ {α : Type} {f : {σ : Type} → Store σ → Store σ × Except Fault α},
      Operates store.table f → (∃ table' fault?, store.table.Follows table' none
          ∧ apply.settle (f store) = ({ store with table := table' }, fault?))
        ∨ ∃ table' change, store.table.Follows table' (some change)
          ∧ apply.settle (f store) = ({ store with table := table' } : Store σ).emit change := by
    rintro α f ⟨table', ⟨fault, hfollows, heq⟩ | ⟨change, result, hfollows, heq⟩⟩
    . exact .inl ⟨table', some fault, hfollows, congrArg apply.settle (heq σ store rfl)⟩
    . exact .inr ⟨table', change, hfollows,
        (congrArg apply.settle (heq σ store rfl)).trans (settle_publish _ _ _)⟩
  cases mutation with
  | insert tag data => exact (hsettle (operates_insert store.table tag data)).imp_right .inl
  | update ref data => exact (hsettle (operates_update store.table ref data)).imp_right .inl
  | modify ref changes => exact (hsettle (operates_modify store.table ref changes)).imp_right .inl
  | retract ref => exact (hsettle (operates_retract store.table ref)).imp_right .inl
  | enter => exact .inr (.inr (.inl rfl))
  | leave => exact .inr (.inr (.inr rfl))
  | beginCycle => exact .inl ⟨store.table.beginCycle, none, ⟨rfl, Int.le_refl _, Int.le_refl _⟩, rfl⟩

/-! ### The log -/

theorem flush_single (listener : Listener σ) (world : σ) (changes : List Change) :
    (flush [listener] world changes).1 = listener.follow world changes := by
  induction changes generalizing world with
  | nil => rfl
  | cons change changes ih =>
    simp only [flush, deliverToAll]
    rw [ih]
    rfl

theorem deliver_single (listener : Listener σ) (change : Change) (world : σ) :
    deliver change world [listener] = listener change world := by
  simp only [deliver]
  split
  . next heq => rw [heq]
  . next heq => rw [heq]

theorem follow_recorder (log changes : List Change) : recorder.follow log changes = log ++ changes := by
  induction changes generalizing log with
  | nil => simp [Listener.follow]
  | cons change changes ih =>
    change recorder.follow (log ++ [change]) changes = _
    rw [ih, List.append_assoc]
    rfl

/-- The store of a single listener goes along with the log of what is delivered to it. -/
structure Mirrors (listener : Listener σ) (start : σ) (log : Store (List Change)) (store : Store σ) :
    Prop where
  table : store.table = log.table
  depth : store.depth = log.depth
  pending : store.pending = log.pending
  listeners : store.listeners = [listener]
  recorders : log.listeners = [recorder]
  world : store.world = listener.follow start log.world

/-- The store with a log in the place of the listeners. -/
def silent (store : Store σ) : Store (List Change) :=
  { table := store.table
    listeners := [recorder]
    depth := store.depth
    pending := store.pending
    world := [] }

/-- The changes that operations on the store deliver, in this order. -/
def delivered (store : Store σ) (mutations : List Mutation) : List Change :=
  (store.silent.applyAll mutations).world

theorem mirrors_silent {listener : Listener σ} {store : Store σ} (h : store.listeners = [listener]) :
    Mirrors listener store.world store.silent store :=
  ⟨rfl, rfl, rfl, h, rfl, rfl⟩

section Mirrors

variable {listener : Listener σ} {start : σ} {log : Store (List Change)} {store : Store σ}
  (h : Mirrors listener start log store)

include h

theorem Mirrors.after (table : FactTable) (change? : Option Change) :
    Mirrors listener start (log.after table change?) (store.after table change?) := by
  cases change? with
  | none => exact ⟨rfl, h.depth, h.pending, h.listeners, h.recorders, h.world⟩
  | some change =>
    simp only [Store.after, emit, h.depth]
    split
    . refine ⟨rfl, rfl, h.pending, h.listeners, h.recorders, ?_⟩
      dsimp only
      rw [h.listeners, h.recorders, deliver_single, deliver_single, h.world]
      change _ = listener.follow start (log.world ++ [change])
      rw [Listener.follow_append]
      rfl
    . exact ⟨rfl, rfl, by rw [h.pending], h.listeners, h.recorders, h.world⟩

theorem Mirrors.enter : Mirrors listener start log.enter store.enter :=
  ⟨h.table, by rw [Store.enter, Store.enter, h.depth], h.pending, h.listeners, h.recorders, h.world⟩

theorem Mirrors.leave : Mirrors listener start log.leave.1 store.leave.1 := by
  simp only [Store.leave, h.depth]
  split
  . refine ⟨h.table, rfl, rfl, h.listeners, h.recorders, ?_⟩
    dsimp only
    rw [h.listeners, h.recorders, flush_single, flush_single, follow_recorder,
      Listener.follow_append, h.world, h.pending]
  . exact ⟨h.table, rfl, h.pending, h.listeners, h.recorders, h.world⟩

theorem Mirrors.apply (mutation : Mutation) :
    Mirrors listener start (log.apply mutation).1 (store.apply mutation).1 := by
  rcases apply_cases mutation log.table with ⟨table', change?, -, heq⟩ | heq | heq
  . rw [heq _ log rfl, heq _ store h.table]
    exact h.after table' change?
  . rw [heq, heq]
    exact h.enter
  . rw [heq, heq]
    exact h.leave

theorem Mirrors.applyAll (mutations : List Mutation) :
    Mirrors listener start (log.applyAll mutations) (store.applyAll mutations) := by
  induction mutations generalizing log store with
  | nil => exact h
  | cons mutation mutations ih => exact ih (h.apply mutation)

end Mirrors

/-- The log and the queue together tell the live facts. -/
structure Recorded (log : Store (List Change)) : Prop where
  listeners : log.listeners = [recorder]
  table : log.table.WellFormed
  legal : Change.Legal [] (log.world ++ log.pending)
  live : (Change.replay [] (log.world ++ log.pending)).Perm log.table.live
  idle : log.depth = 0 → log.pending = []

theorem recorded_silent {store : Store σ} (htable : store.table.WellFormed)
    (hfacts : store.table.live = []) (hpending : store.pending = []) : store.silent.Recorded := by
  refine ⟨rfl, htable, ?_, ?_, fun _ => hpending⟩
  . change Change.Legal [] ([] ++ store.pending)
    rw [hpending]
    trivial
  . change (Change.replay [] ([] ++ store.pending)).Perm store.table.live
    rw [hpending, hfacts]
    exact .nil

section Recorded

variable {log : Store (List Change)} (h : log.Recorded)

include h

theorem Recorded.after {table' : FactTable} {change? : Option Change}
    (hfollows : log.table.Follows table' change?) : (log.after table' change?).Recorded := by
  have htable := hfollows.wellFormed h.table
  cases change? with
  | none =>
    refine ⟨h.listeners, htable, h.legal, ?_, h.idle⟩
    rw [Store.after, hfollows.1]
    exact h.live
  | some change =>
    obtain ⟨hadmissible, htakes, hleaves⟩ := hfollows.change h.table
    have hlegal : Change.Legal [] (log.world ++ log.pending ++ [change]) := by
      rw [Change.legal_append]
      refine ⟨h.legal, Change.admissible_perm h.live.symm hadmissible, ?_, trivial⟩
      intro fact hfact
      exact h.live.mem_iff.mpr (htakes fact hfact)
    have hlive : (Change.replay [] (log.world ++ log.pending ++ [change])).Perm table'.live := by
      rw [Change.replay_append]
      exact (Change.applied_perm h.live change).trans hleaves
    simp only [Store.after, emit]
    split
    . next hdepth =>
      have hpending := h.idle hdepth
      rw [hpending, List.append_nil] at hlegal hlive
      rw [h.listeners, deliver_single]
      refine ⟨rfl, htable, ?_, ?_, h.idle⟩ <;> dsimp only <;> rw [hpending, List.append_nil]
      . exact hlegal
      . exact hlive
    . next hdepth =>
      refine ⟨h.listeners, htable, ?_, ?_, fun hzero => absurd hzero hdepth⟩ <;> dsimp only <;>
        rw [← List.append_assoc]
      . exact hlegal
      . exact hlive

theorem Recorded.leave : log.leave.1.Recorded := by
  unfold Store.leave
  split
  . refine ⟨h.listeners, h.table, ?_, ?_, fun _ => rfl⟩ <;> dsimp only <;>
      rw [h.listeners, flush_single, follow_recorder, List.append_nil]
    . exact h.legal
    . exact h.live
  . next hdepth =>
    refine ⟨h.listeners, h.table, h.legal, h.live, ?_⟩
    intro hzero
    exact False.elim (hdepth (by change log.depth - 1 = 0 at hzero; omega))

theorem Recorded.apply (mutation : Mutation) : (log.apply mutation).1.Recorded := by
  rcases apply_cases mutation log.table with ⟨table', change?, hfollows, heq⟩ | heq | heq
  . rw [heq _ log rfl]
    exact h.after hfollows
  . rw [heq]
    exact ⟨h.listeners, h.table, h.legal, h.live, fun hzero => by cases hzero⟩
  . rw [heq]
    exact h.leave

theorem Recorded.applyAll (mutations : List Mutation) : (log.applyAll mutations).Recorded := by
  induction mutations generalizing log with
  | nil => exact h
  | cons mutation mutations ih => exact ih (h.apply mutation)

end Recorded
end Store
end ForwardChaining
