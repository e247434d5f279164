import ForwardChaining.Proofs.Store.Mutation

/-!
This module contains what is done with a store, and which calls of its listeners it brings about. Each
listener is watched: a call is noted with the change it was about and with the fault it raised.
-/

namespace ForwardChaining

/-- A call of a listener, which has a number in the order of subscription. -/
structure Call where
  listener : Nat
  change : Change
  fault : Option Fault

/-- A listener that does what it does, and whose calls are noted under a number. -/
def Listener.watched (listener : Listener σ) (number : Nat) : Listener (List Call × σ) :=
  fun change (calls, world) =>
    let (world, fault) := listener change world
    ((calls ++ [⟨number, change, fault⟩], world), fault)

/-- A listener that fails on every change. -/
def refusing : Listener Unit :=
  fun _ world => (world, some (.sessionState "refused" none))

/-- Listeners that are watched under consecutive numbers. -/
def watchFrom (number : Nat) : List (Listener σ) → List (Listener (List Call × σ))
  | [] => []
  | listener :: listeners => listener.watched number :: watchFrom (number + 1) listeners

/-- The calls are noted behind those of before. -/
def Adds (before : List Call × σ) (calls : List Call) (after : List Call × σ) : Prop :=
  after.1 = before.1 ++ calls

/-- Listeners are called with a change, one after the other. The first that fails ends it. -/
inductive AtOnce (change : Change) : List Nat → List Call → Prop where
  | done : AtOnce change [] []
  | failed (number : Nat) (numbers : List Nat) (fault : Fault) :
      AtOnce change (number :: numbers) [⟨number, change, some fault⟩]
  | next (number : Nat) {numbers : List Nat} {calls : List Call} (h : AtOnce change numbers calls) :
      AtOnce change (number :: numbers) (⟨number, change, none⟩ :: calls)

theorem length_watchFrom (number : Nat) (listeners : List (Listener σ)) :
    (watchFrom number listeners).length = listeners.length := by
  induction listeners generalizing number with
  | nil => rfl
  | cons listener listeners ih => rw [watchFrom, List.length_cons, ih, List.length_cons]

theorem watchFrom_append (number : Nat) (listeners more : List (Listener σ)) :
    watchFrom number (listeners ++ more)
      = watchFrom number listeners ++ watchFrom (number + listeners.length) more := by
  induction listeners generalizing number with
  | nil => rfl
  | cons listener listeners ih =>
    rw [List.cons_append, watchFrom, ih, watchFrom, List.cons_append, List.length_cons, Nat.add_assoc,
      Nat.add_comm 1]

namespace Store

variable {σ : Type}

theorem deliver_watched (change : Change) (world : List Call × σ) (number : Nat)
    (listeners : List (Listener σ)) :
    ∃ calls, Adds world calls (deliver change world (watchFrom number listeners)).1
      ∧ AtOnce change (List.range' number listeners.length) calls
      ∧ (deliver change world (watchFrom number listeners)).2 = calls.findSome? (·.fault) := by
  induction listeners generalizing world number with
  | nil => exact ⟨[], by simp [Adds, watchFrom, deliver], .done, rfl⟩
  | cons listener listeners ih =>
    rw [watchFrom, List.length_cons, List.range'_succ]
    simp only [deliver, Listener.watched]
    cases hcall : listener change world.2 with
    | mk after fault =>
      cases fault with
      -- the listeners behind one that fails are not called
      | some fault => exact ⟨_, rfl, .failed number _ fault, rfl⟩
      | none =>
        obtain ⟨calls, hadds, honce, hfault⟩ :=
          ih (world.1 ++ [⟨number, change, none⟩], after) (number + 1)
        refine ⟨⟨number, change, none⟩ :: calls, ?_, .next number honce, hfault⟩
        unfold Adds at hadds ⊢
        rw [hadds, List.append_assoc]
        rfl

theorem deliverToAll_watched (change : Change) (world : List Call × σ) (number : Nat)
    (listeners : List (Listener σ)) :
    ∃ calls, Adds world calls (deliverToAll change world (watchFrom number listeners)).1
      ∧ calls.map (fun call => (call.change, call.listener))
        = (List.range' number listeners.length).map (change, ·)
      ∧ (deliverToAll change world (watchFrom number listeners)).2 = calls.findSome? (·.fault) := by
  induction listeners generalizing world number with
  | nil => exact ⟨[], by simp [Adds, watchFrom, deliverToAll], rfl, rfl⟩
  | cons listener listeners ih =>
    rw [watchFrom, List.length_cons, List.range'_succ]
    simp only [deliverToAll]
    obtain ⟨calls, hadds, hmap, hfault⟩ :=
      ih (listener.watched number change world).1 (number + 1)
    refine ⟨⟨number, change, (listener change world.2).2⟩ :: calls, ?_, ?_, ?_⟩
    . unfold Adds at hadds ⊢
      rw [hadds]
      simp [Listener.watched]
    . rw [List.map_cons, List.map_cons, hmap]
    . rw [hfault, List.findSome?_cons]
      simp only [Listener.watched]
      cases (listener change world.2).2 <;> rfl

theorem flush_watched (world : List Call × σ) (listeners : List (Listener σ)) (changes : List Change) :
    ∃ calls, Adds world calls (flush (watchFrom 0 listeners) world changes).1
      ∧ calls.map (fun call => (call.change, call.listener))
        = changes.flatMap (fun change => (List.range listeners.length).map (change, ·))
      ∧ (flush (watchFrom 0 listeners) world changes).2 = calls.findSome? (·.fault) := by
  induction changes generalizing world with
  | nil => exact ⟨[], by simp [Adds, flush], rfl, rfl⟩
  | cons change changes ih =>
    simp only [flush]
    obtain ⟨calls, hadds, hmap, hfault⟩ := deliverToAll_watched change world 0 listeners
    obtain ⟨more, hadds', hmap', hfault'⟩ :=
      ih (deliverToAll change world (watchFrom 0 listeners)).1
    refine ⟨calls ++ more, ?_, ?_, ?_⟩
    . unfold Adds at hadds hadds' ⊢
      rw [hadds', hadds, List.append_assoc]
    . rw [List.map_append, hmap, hmap', List.flatMap_cons, List.range_eq_range']
    . rw [List.findSome?_append, hfault, hfault']

end Store

/-- What is done with a store. -/
inductive Use (σ : Type) where
  | subscribe (listener : Listener σ)
  | mutate (mutation : Mutation)
  /-- Leave the innermost block, perhaps by an exception. -/
  | exit (own : Option Fault)

namespace Use

/-- How many blocks are open after a use, unless it closes one that is not open. -/
def level (depth : Nat) : Use σ → Option Nat
  | .mutate .enter => some (depth + 1)
  | .mutate .leave | .exit _ => if depth = 0 then none else some (depth - 1)
  | _ => some depth

/-- All blocks that are opened are closed again, and no others. -/
def Nested (uses : List (Use σ)) : Prop :=
  uses.foldlM level 0 = some 0

instance (uses : List (Use σ)) : Decidable (Nested uses) :=
  inferInstanceAs (Decidable (_ = _))

end Use

/-- The table after a use, and the change that it makes, if it makes one. -/
def FactTable.used (table : FactTable) : Use σ → FactTable × Option Change
  | .mutate mutation => ((table.mutate mutation).1, table.makes mutation)
  | .subscribe _ | .exit _ => (table, none)

/-- The changes that uses make, in this order. -/
def FactTable.emitted (table : FactTable) : List (Use σ) → List Change
  | [] => []
  | use :: uses => (table.used use).2.toList ++ emitted (table.used use).1 uses

namespace Store

variable {σ : Type}

/-- A store without facts to which nobody listens yet. -/
def fresh (declared : Option (List FactType)) (world : σ) : Store (List Call × σ) :=
  { table := { declared }, world := ([], world) }

/-- Leave the innermost block. A fault of a listener takes the place of an exception on its way. -/
def exit (store : Store σ) (own : Option Fault) : Store σ × Option Fault :=
  (store.leave.1, store.leave.2.or own)

/-- The store after a use, and the fault that comes of it. Each listener is watched under its number. -/
def use (store : Store (List Call × σ)) : Use σ → Store (List Call × σ) × Option Fault
  | .subscribe listener => (store.subscribe (listener.watched store.listeners.length), none)
  | .mutate mutation => store.apply mutation
  | .exit own => store.exit own

/-- The store after some uses. Those that fail do not end them. -/
def useAll (store : Store (List Call × σ)) (uses : List (Use σ)) : Store (List Call × σ) :=
  uses.foldl (fun store use => (store.use use).1) store

/-- The calls of the listeners. -/
def calls (store : Store (List Call × σ)) : List Call :=
  store.world.1

/-- All that a use can do to a store. -/
inductive Uses (store : Store (List Call × σ)) :
    Use σ → Store (List Call × σ) × Option Fault → Prop where
  | subscribed (listener : Listener σ) :
      Uses store (.subscribe listener)
        (store.subscribe (listener.watched store.listeners.length), none)
  | entered : Uses store (.mutate .enter) (store.enter, none)
  | left {use : Use σ} (hlevel : ∀ depth, use.level depth = if depth = 0 then none else some (depth - 1))
      (hused : store.table.used use = (store.table, none)) (own : Option Fault) :
      Uses store use (store.exit own)
  | kept {mutation : Mutation} (hedge : ¬ mutation.IsEdge)
      (hmakes : store.table.makes mutation = none) (fault? : Option Fault) :
      Uses store (.mutate mutation)
        ({ store with table := (store.table.mutate mutation).1 }, fault?)
  | changed {mutation : Mutation} (hedge : ¬ mutation.IsEdge) (change : Change)
      (hmakes : store.table.makes mutation = some change) :
      Uses store (.mutate mutation)
        (({ store with table := (store.table.mutate mutation).1 } : Store _).emit change)

theorem uses_use (store : Store (List Call × σ)) (use : Use σ) : store.Uses use (store.use use) := by
  cases use with
  | subscribe listener => exact .subscribed listener
  | exit own => exact .left (fun _ => rfl) rfl own
  | mutate mutation =>
    by_cases hedge : mutation.IsEdge
    . cases mutation with
      | enter => exact .entered
      | leave =>
        -- a block that is left normally is left without an exception on its way
        have heq : store.use (.mutate .leave) = store.exit none := by
          simp only [Store.use, apply, exit, Option.or_none]
        rw [heq]
        exact .left (fun _ => rfl) rfl none
      | _ => cases hedge
    . simp only [Store.use]
      cases hmakes : store.table.makes mutation with
      | some change =>
        rw [apply_of_makes hmakes]
        exact .changed hedge change hmakes
      | none =>
        obtain ⟨fault?, heq⟩ := apply_of_makes_none hedge hmakes
        rw [heq]
        exact .kept hedge hmakes fault?

/-- Every listener is watched, under the number of its subscription. -/
def Watched (store : Store (List Call × σ)) : Prop :=
  ∃ listeners : List (Listener σ), store.listeners = watchFrom 0 listeners

/-- Nothing is queued outside a block. -/
def Idle (store : Store σ) : Prop :=
  store.depth = 0 → store.pending = []

/-! ### Frames -/

theorem frame_emit (store : Store σ) (change : Change) :
    (store.emit change).1.table = store.table ∧ (store.emit change).1.depth = store.depth
      ∧ (store.emit change).1.listeners = store.listeners := by
  unfold emit
  split <;> exact ⟨rfl, rfl, rfl⟩

theorem frame_leave (store : Store σ) :
    store.leave.1.table = store.table ∧ store.leave.1.depth = store.depth - 1
      ∧ store.leave.1.listeners = store.listeners := by
  unfold leave
  split
  . refine ⟨rfl, ?_, rfl⟩
    dsimp only
    omega
  . exact ⟨rfl, rfl, rfl⟩

theorem table_use (store : Store (List Call × σ)) (use : Use σ) :
    (store.use use).1.table = (store.table.used use).1 := by
  have huses := store.uses_use use
  generalize store.use use = outcome at huses ⊢
  cases huses with
  | subscribed listener => rfl
  | entered => rfl
  | left hlevel hused own => rw [hused, exit, (frame_leave store).1]
  | kept hedge hmakes fault? => rfl
  | changed hedge change hmakes => exact (frame_emit _ change).1

theorem watched_use {store : Store (List Call × σ)} (h : store.Watched) (use : Use σ) :
    (store.use use).1.Watched := by
  obtain ⟨listeners, hlisteners⟩ := h
  have huses := store.uses_use use
  generalize store.use use = outcome at huses ⊢
  cases huses with
  | subscribed listener =>
    refine ⟨listeners ++ [listener], ?_⟩
    rw [watchFrom_append, Nat.zero_add, subscribe, hlisteners, length_watchFrom]
    rfl
  | entered => exact ⟨listeners, hlisteners⟩
  | left hlevel hused own => exact ⟨listeners, (frame_leave store).2.2.trans hlisteners⟩
  | kept hedge hmakes fault? => exact ⟨listeners, hlisteners⟩
  | changed hedge change hmakes => exact ⟨listeners, (frame_emit _ change).2.2.trans hlisteners⟩

theorem idle_leave (store : Store σ) : store.leave.1.Idle := by
  unfold leave
  split
  . exact fun _ => rfl
  . intro hzero
    dsimp only at hzero
    omega

theorem idle_emit {store : Store σ} (h : store.Idle) (change : Change) : (store.emit change).1.Idle := by
  unfold emit
  split
  . exact h
  . next hdepth => exact fun hzero => absurd hzero hdepth

theorem idle_use {store : Store (List Call × σ)} (h : store.Idle) (use : Use σ) :
    (store.use use).1.Idle := by
  have huses := store.uses_use use
  generalize store.use use = outcome at huses ⊢
  cases huses with
  | subscribed listener => exact h
  | entered => exact fun hzero => nomatch hzero
  | left hlevel hused own => exact idle_leave store
  | kept hedge hmakes fault? => exact h
  | @changed mutation hedge change hmakes =>
    have hmoved : ({ store with table := (store.table.mutate mutation).1 } : Store _).Idle := h
    exact idle_emit hmoved change

theorem useAll_induction {motive : Store (List Call × σ) → Prop}
    (huse : ∀ store use, motive store → motive (store.use use).1) {store : Store (List Call × σ)}
    (h : motive store) (uses : List (Use σ)) : motive (store.useAll uses) := by
  induction uses generalizing store with
  | nil => exact h
  | cons use uses ih => exact ih (huse store use h)

theorem idle_useAll (declared : Option (List FactType)) (world : σ) (uses : List (Use σ)) :
    ((fresh declared world).useAll uses).Idle :=
  useAll_induction (motive := Idle) (fun _ use h => idle_use h use) (fun _ => rfl) uses

theorem watched_useAll (declared : Option (List FactType)) (world : σ) (uses : List (Use σ)) :
    ((fresh declared world).useAll uses).Watched :=
  useAll_induction (motive := Watched) (fun _ use h => watched_use h use) ⟨[], rfl⟩ uses

theorem useAll_append (store : Store (List Call × σ)) (uses more : List (Use σ)) :
    store.useAll (uses ++ more) = (store.useAll uses).useAll more :=
  List.foldl_append

end Store
end ForwardChaining
