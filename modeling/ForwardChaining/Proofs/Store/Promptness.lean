import ForwardChaining.Proofs.Store.Deferral

/-!
This module contains a comparison of the two ways to deliver a change: at once, and at the end of a block in
which it is made alone. The table, the answer and the error are the same. At once, the listeners behind the
first that fails are not told of the change; if there are none, everything is the same.
-/

namespace ForwardChaining

namespace Store

variable {σ : Type}

/-- An operation alone in a block. A fault of the operation is on its way when the block is left. -/
def operateDeferred (store : Store σ) (mutation : Mutation) : Store σ × Except Fault Mutation.Answer :=
  match store.enter.operate mutation with
  | (inside, .error own) => raised (inside.exit (some own)) (.error own)
  | (inside, .ok answer) => raised (inside.exit none) (.ok answer)
where
  /-- The outcome, unless a fault takes its place. -/
  raised : Store σ × Option Fault → Except Fault Mutation.Answer →
      Store σ × Except Fault Mutation.Answer
    | (store, some fault), _ => (store, .error fault)
    | (store, none), outcome => (store, outcome)

/-! ### One change -/

/--
At once, a change is delivered to the listeners up to the first that fails. The end of a block goes on from
there, and reports the same fault.
-/
theorem deliverToAll_deliver (change : Change) (world : List Call × σ) (number : Nat)
    (listeners : List (Listener σ)) :
    ∃ calls missed, Adds world calls (deliver change world (watchFrom number listeners)).1
      ∧ Adds world (calls ++ missed) (deliverToAll change world (watchFrom number listeners)).1
      ∧ (calls ++ missed).map (fun call => (call.change, call.listener))
        = (List.range' number listeners.length).map (change, ·)
      ∧ (deliverToAll change world (watchFrom number listeners)).2
        = (deliver change world (watchFrom number listeners)).2
      ∧ ((∀ call ∈ calls, call.fault ≠ none → call.listener + 1 = number + listeners.length) →
        deliverToAll change world (watchFrom number listeners)
          = deliver change world (watchFrom number listeners)) := by
  induction listeners generalizing world number with
  | nil => exact ⟨[], [], by simp [Adds, watchFrom, deliver], by simp [Adds, watchFrom, deliverToAll],
      rfl, rfl, fun _ => rfl⟩
  | cons listener listeners ih =>
    rw [watchFrom, List.length_cons, List.range'_succ]
    simp only [deliver, deliverToAll, Listener.watched]
    cases hcall : listener change world.2 with
    | mk after fault =>
      cases fault with
      | some fault =>
        -- here the delivery at once ends, and all that is left is missed
        obtain ⟨missed, hadds, hmap, -⟩ := deliverToAll_watched change
          (world.1 ++ [⟨number, change, some fault⟩], after) (number + 1) listeners
        refine ⟨[⟨number, change, some fault⟩], missed, rfl, ?_, ?_, rfl, ?_⟩
        . unfold Adds at hadds ⊢
          rw [hadds, List.append_assoc]
        . rw [List.singleton_append, List.map_cons, hmap]
          rfl
        . intro hlast
          have hnumber := hlast _ (List.mem_singleton_self _) (by simp)
          have hnone : listeners = [] := List.length_eq_zero_iff.mp (by dsimp only at hnumber; omega)
          rw [hnone]
          rfl
      | none =>
        obtain ⟨calls, missed, hadds, hadds', hmap, hfault, hequal⟩ :=
          ih (world.1 ++ [⟨number, change, none⟩], after) (number + 1)
        refine ⟨⟨number, change, none⟩ :: calls, missed, ?_, ?_, ?_, hfault, fun hlast => ?_⟩
        . unfold Adds at hadds ⊢
          rw [hadds, List.append_assoc]
          rfl
        . unfold Adds at hadds' ⊢
          rw [hadds', List.append_assoc]
          rfl
        . rw [List.cons_append, List.map_cons, hmap]
          rfl
        . refine hequal fun call hcall hfails => ?_
          rw [hlast call (List.mem_cons_of_mem _ hcall) hfails]
          omega

/-! ### One operation -/

section Between

variable {store : Store σ} (hdepth : store.depth = 0) {mutation : Mutation}
  (hedge : ¬ mutation.IsEdge)

include hdepth hedge

theorem operate_of_makes {change : Change} (h : store.table.makes mutation = some change) :
    store.operate mutation = ({ store with
        table := (store.table.mutate mutation).1
        world := (deliver change store.world store.listeners).1 },
      (deliver change store.world store.listeners).2.elim (.ok change.answer) .error) := by
  rw [operate_eq store hedge, FactTable.mutate_of_makes h, carryOut]
  unfold publish emit
  rw [if_pos hdepth]
  cases deliver change store.world store.listeners with
  | mk world fault? => cases fault? <;> rfl

variable (hpending : store.pending = [])

include hpending

theorem operateDeferred_of_makes {change : Change} (h : store.table.makes mutation = some change) :
    store.operateDeferred mutation = ({ store with
        table := (store.table.mutate mutation).1
        world := (deliverToAll change store.world store.listeners).1 },
      (deliverToAll change store.world store.listeners).2.elim (.ok change.answer) .error) := by
  have hinside : store.enter.operate mutation = ({ store.enter with
      table := (store.table.mutate mutation).1
      pending := [change] }, .ok change.answer) := by
    rw [operate_eq store.enter hedge, enter, FactTable.mutate_of_makes h, carryOut,
      publish_deferred (Nat.succ_ne_zero _), hpending]
    rfl
  rw [operateDeferred, hinside]
  simp only [exit, leave, enter, hdepth, Nat.le_refl, if_true, flush, Option.or_none]
  cases deliverToAll change store.world store.listeners with
  | mk world fault? => cases fault? <;> simp [operateDeferred.raised, hpending]

theorem operateDeferred_of_makes_none (h : store.table.makes mutation = none) :
    store.operateDeferred mutation = store.operate mutation := by
  rw [operateDeferred, operate_eq store hedge, operate_eq store.enter hedge, enter]
  unfold FactTable.makes at h
  cases houtcome : store.table.mutate mutation with
  | mk table outcome =>
    rw [houtcome] at h
    cases outcome with
    | error fault =>
      simp [carryOut, exit, leave, operateDeferred.raised, hdepth, hpending, flush]
    | ok change? =>
      cases change? with
      | none => simp [carryOut, exit, leave, operateDeferred.raised, hdepth, hpending, flush]
      | some change => cases h

end Between

/-- What comes of an operation whose change is delivered at once, and of the same alone in a block. -/
structure Agrees (store : Store (List Call × σ)) (mutation : Mutation) : Prop where
  /-- The same is returned, or the same is raised. -/
  answer : (store.operateDeferred mutation).2 = (store.operate mutation).2
  /-- The same store is left behind, apart from what the listeners have done. -/
  frame : { (store.operate mutation).1 with world := (store.operateDeferred mutation).1.world }
    = (store.operateDeferred mutation).1
  /--
  The block calls everyone with the change. At once, these calls end with the first that fails; if that is the
  last of them anyway, or none fails, everything is the same.
  -/
  heard : ∃ calls missed, (store.operate mutation).1.calls = store.calls ++ calls
    ∧ (store.operateDeferred mutation).1.calls = store.calls ++ (calls ++ missed)
    ∧ (calls ++ missed).map (fun call => (call.change, call.listener))
      = (store.table.makes mutation).toList.flatMap (fun change =>
        (List.range store.listeners.length).map (change, ·))
    ∧ ((∀ call ∈ calls, call.fault ≠ none → call.listener + 1 = store.listeners.length) →
      store.operateDeferred mutation = store.operate mutation)

theorem agrees_of_idle {store : Store (List Call × σ)} (hdepth : store.depth = 0)
    (hpending : store.pending = []) (hwatched : store.Watched) {mutation : Mutation}
    (hedge : ¬ mutation.IsEdge) : store.Agrees mutation := by
  cases hmakes : store.table.makes mutation with
  | none =>
    have hequal := operateDeferred_of_makes_none hdepth hedge hpending hmakes
    have hcalls : (store.operate mutation).1.calls = store.calls := by
      obtain ⟨fault?, happly⟩ := apply_of_makes_none hedge hmakes
      rw [← fst_settle, settle_operate, happly]
      rfl
    refine ⟨by rw [hequal], by rw [hequal], [], [], ?_, ?_, ?_, fun _ => hequal⟩
    . rw [hcalls, List.append_nil]
    . rw [hequal, hcalls, List.append_nil, List.append_nil]
    . rw [hmakes]
      rfl
  | some change =>
    obtain ⟨listeners, hlisteners⟩ := hwatched
    obtain ⟨calls, missed, hadds, hadds', hmap, hfault, hequal⟩ :=
      deliverToAll_deliver change store.world 0 listeners
    have hlength : store.listeners.length = listeners.length := by
      rw [hlisteners, length_watchFrom]
    have hprompt := operate_of_makes hdepth hedge hmakes
    have hdeferred := operateDeferred_of_makes hdepth hedge hpending hmakes
    rw [hlisteners] at hprompt hdeferred
    refine ⟨?_, by rw [hprompt, hdeferred], calls, missed, ?_, ?_, ?_, fun hlast => ?_⟩
    . rw [hprompt, hdeferred, hfault]
    . rw [hprompt]
      exact hadds
    . rw [hdeferred]
      exact hadds'
    . rw [hmap, hmakes, hlength, List.range_eq_range']
      simp
    . rw [hprompt, hdeferred, hequal]
      rwa [Nat.zero_add, ← hlength]

/--
Between blocks, whatever was done with the store before: an operation alone in a block has the same effect as
outside of it, except that outside the listeners behind the first that fails are not told of the change.
-/
theorem agrees_between (declared : Option (List FactType)) (world : σ) {earlier : List (Use σ)}
    (hearlier : Use.Nested earlier) {mutation : Mutation} (hedge : ¬ mutation.IsEdge) :
    ((fresh declared world).useAll earlier).Agrees mutation := by
  have hdepth : ((fresh declared world).useAll earlier).depth = 0 := depth_useAll hearlier rfl
  exact agrees_of_idle hdepth (idle_useAll declared world earlier hdepth)
    (watched_useAll declared world earlier) hedge

/-- A listener that does nothing, and never fails. -/
def accepting : Listener Unit :=
  fun _ world => (world, none)

/-- A listener that fails, behind one that does not: everything is the same. -/
theorem agrees_between_last :
    ((fresh none ()).useAll [.subscribe accepting, .subscribe refusing]).operateDeferred
        (.insert (.text "note") .null)
      = ((fresh none ()).useAll [.subscribe accepting, .subscribe refusing]).operate
        (.insert (.text "note") .null) := by
  obtain ⟨-, -, calls, missed, hcalls, -, -, hequal⟩ :=
    @agrees_between Unit none () [.subscribe accepting, .subscribe refusing] (by decide)
      (.insert (.text "note") .null) id
  refine hequal ?_
  have hmade : [⟨0, .inserted ⟨1, "note", [], 1, 1⟩, none⟩, ⟨1, .inserted ⟨1, "note", [], 1, 1⟩,
      some (.sessionState "refused" none)⟩] = calls := hcalls
  rw [← hmade]
  simp [useAll, use, fresh, subscribe]

/-- A listener that fails, in front of one that does not: at once, the one behind it misses the fact. -/
theorem refused_before_accepting :
    (((fresh none ()).useAll [.subscribe refusing, .subscribe accepting]).operate
        (.insert (.text "note") .null)).1.calls.map (·.listener) = [0]
    ∧ (((fresh none ()).useAll [.subscribe refusing, .subscribe accepting]).operateDeferred
        (.insert (.text "note") .null)).1.calls.map (·.listener) = [0, 1] :=
  ⟨by rfl, by rfl⟩

end Store
end ForwardChaining
