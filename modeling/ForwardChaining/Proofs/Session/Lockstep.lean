import ForwardChaining.Proofs.Session.Simulation

/-!
This module contains that a firing does the same to a store that a network follows and to one that only
logs its changes: inside the deferred block nothing is delivered, so that the action sees the same facts,
and what is delivered in the end is the same changes.
-/

namespace ForwardChaining

namespace Store

variable {σ : Type} {listener : Listener σ}

/-- A store and a log of the same facts, with so many deferred blocks open and the same changes queued. -/
structure Paired (listener : Listener σ) (depth : Nat) (store : Store σ) (log : Store (List Change)) :
    Prop where
  table : log.table = store.table
  pending : log.pending = store.pending
  depths : store.depth = depth ∧ log.depth = depth
  listeners : store.listeners = [listener]
  recorded : log.Recorded
  stamped : log.table.Stamped

section Paired

variable {store : Store σ} {log : Store (List Change)}

theorem Paired.enter {depth : Nat} (h : Paired listener depth store log) :
    Paired listener (depth + 1) store.enter log.enter :=
  ⟨h.table, h.pending, ⟨congrArg (· + 1) h.depths.1, congrArg (· + 1) h.depths.2⟩, h.listeners,
    h.recorded.apply .enter, h.stamped⟩

theorem Paired.beginCycle {depth : Nat} (h : Paired listener depth store log) :
    Paired listener depth store.beginCycle log.beginCycle :=
  ⟨congrArg FactTable.beginCycle h.table, h.pending, h.depths, h.listeners,
    h.recorded.apply .beginCycle, ⟨h.stamped.clock, h.stamped.stamps⟩⟩

theorem Paired.mapWorld {depth : Nat} (h : Paired listener depth store log) (world : σ) :
    Paired listener depth { store with world } log :=
  ⟨h.table, h.pending, h.depths, h.listeners, h.recorded, h.stamped⟩

theorem Paired.idle (h : Paired listener 0 store log) : log.pending = [] ∧ store.pending = [] := by
  have hpending := h.recorded.idle h.depths.2
  exact ⟨hpending, h.pending ▸ hpending⟩

theorem Paired.live (h : Paired listener 0 store log) :
    log.table.live.Perm (Change.replay [] log.world) := by
  have hlive := h.recorded.live
  rw [h.idle.1, List.append_nil] at hlive
  exact hlive.symm

theorem parallel_paired (listener : Listener σ) (world : σ) (delivered : List Change) :
    Parallel fun (a : Store σ) (b : Store (List Change)) =>
      Paired listener 1 a b ∧ a.world = world ∧ b.world = delivered := by
  constructor
  . exact fun h => h.1.table
  . rintro a b α f ⟨h, hworld, hdelivered⟩
      ⟨table', ⟨fault, hfollows, heq⟩ | ⟨change, result, hfollows, heq⟩⟩
    . rw [← h.table] at hfollows
      have hrecorded : ({ b with table := table' } : Store (List Change)).Recorded :=
        h.recorded.after hfollows
      have ha : f a = _ := heq _ a rfl
      have hb : f b = _ := heq _ b h.table
      rw [ha, hb]
      exact ⟨rfl, ⟨rfl, h.pending, h.depths, h.listeners, hrecorded, hfollows.stamped h.stamped⟩,
        hworld, hdelivered⟩
    . rw [← h.table] at hfollows
      have hdeferred : a.depth ≠ 0 ∧ b.depth ≠ 0 := by
        rw [h.depths.1, h.depths.2]
        exact ⟨one_ne_zero, one_ne_zero⟩
      have hrecorded := h.recorded.after hfollows
      rw [Store.after, emit, if_neg hdeferred.2] at hrecorded
      have ha : f a = _ := heq _ a rfl
      have hb : f b = _ := heq _ b h.table
      rw [ha, hb, publish_deferred (by exact hdeferred.2), publish_deferred (by exact hdeferred.1)]
      exact ⟨rfl, ⟨rfl, congrArg (· ++ [change]) h.pending, h.depths, h.listeners, hrecorded,
        hfollows.stamped h.stamped⟩, hworld, hdelivered⟩

theorem flush_recorder (log changes : List Change) :
    flush [recorder] log changes = (log ++ changes, none) := by
  induction changes generalizing log with
  | nil => rw [flush, List.append_nil]
  | cons change changes ih =>
    simp only [flush, deliverToAll, recorder, ih, List.append_assoc, List.singleton_append,
      Option.or_none]

theorem Paired.leave (h : Paired listener 1 store log) :
    Paired listener 0 store.leave.1 log.leave.1
      ∧ store.leave.1.world = listener.follow store.world store.pending
      ∧ log.leave.1.world = log.world ++ store.pending
      ∧ store.leave.2 = (flush [listener] store.world store.pending).2 ∧ log.leave.2 = none := by
  have hstore : store.leave = ({ store with
      depth := 0, pending := [], world := (flush [listener] store.world store.pending).1 },
      (flush [listener] store.world store.pending).2) := by
    rw [Store.leave, if_pos (by rw [h.depths.1]), h.listeners]
  have hlog : log.leave = ({ log with
      depth := 0, pending := [], world := log.world ++ store.pending }, none) := by
    rw [Store.leave, if_pos (by rw [h.depths.2]), h.recorded.listeners, flush_recorder, h.pending]
  have hrecorded := h.recorded.leave
  rw [hlog] at hrecorded
  rw [hstore, hlog, flush_single]
  exact ⟨⟨h.table, rfl, ⟨rfl, rfl⟩, h.listeners, hrecorded, h.stamped⟩, rfl, rfl, rfl, rfl⟩

end Paired
end Store

/-! ### Following what an action has done -/

namespace Network

theorem flush_faithful {net : Network} (h : net.Faithful)
    (hpredicates : SharesPredicates net.ruleSet.rules) {changes : List Change}
    (hlegal : Change.Legal net.working.facts changes)
    (hregular : ∀ change ∈ changes, ∀ fact ∈ change.brings, fact.Regular net.ruleSet.rules) :
    (Store.flush [listener] net changes).2 = none := by
  induction changes generalizing net with
  | nil => rfl
  | cons change changes ih =>
    obtain ⟨hadmissible, htakes, hlegal⟩ := hlegal
    rw [List.forall_mem_cons] at hregular
    obtain ⟨hok, -⟩ := finishes_onChange h hadmissible htakes hregular.1
    obtain ⟨hnext, hruleSet, hfacts⟩ :=
      faithful_onChange h hpredicates hadmissible htakes hregular.1
    have hrest := ih hnext (by rw [hruleSet]; exact hpredicates) (by rw [hfacts]; exact hlegal)
      (by rw [hruleSet]; exact hregular.2)
    have hlistener : listener change net = ((net.onChange change).1, none) := Prod.ext rfl hok
    simp only [Store.flush, Store.deliverToAll, hlistener, hrest, Option.or_none]

end Network

/-! ### Firings -/

/-- The firing in the store of another session. -/
def Firing.over {σ τ : Type} (firing : Firing σ) (store : Store τ) : Firing τ where
  store := store
  rule := firing.rule
  bindings := firing.bindings
  values := firing.values
  cycle := firing.cycle
  explanations := firing.explanations
  serial := firing.serial

theorem Firing.alike_over {σ τ : Type} {R : Store σ → Store τ → Prop} (firing : Firing σ)
    {store : Store τ} (h : R firing.store store) :
    firing.Alike R (fun _ => True) True (firing.over store) :=
  ⟨h, rfl, rfl, rfl, fun _ => rfl, rfl, fun _ _ => trivial, rfl⟩

theorem Firing.Alike.eq_over {σ τ : Type} {R : Store σ → Store τ → Prop} {P : Value → Prop}
    {a : Firing σ} {b : Firing τ} (h : a.Alike R P True b) : b = a.over b.store := by
  cases b
  rw [Firing.over, Firing.mk.injEq]
  exact ⟨rfl, h.rule, h.bindings, h.values, h.cycle trivial, h.explanations, h.serial⟩

namespace Session

/-- What an action leaves in the store of a network and in a log: the changes that it has made. -/
structure Performed (firing : Firing) (log : Store (List Change)) (changes : List Change)
    (last : Firing × Option Fault) (logged : Firing (List Change) × Option Fault) : Prop where
  stores : Store.Paired Network.listener 0 last.1.store logged.1.store
  world : last.1.store.world = Network.listener.follow firing.store.world changes
  delivered : logged.1.store.world = log.world ++ changes
  alike : logged.1 = last.1.over logged.1.store
  /-- There is no other fault than one from following the changes. -/
  fault : (Store.flush [Network.listener] firing.store.world changes).2 = none → logged.2 = last.2

theorem performed {firing : Firing} {log : Store (List Change)}
    (h : Store.Paired Network.listener 0 firing.store log) (rule : Rule) :
    ∃ changes, Performed firing log changes (performDeferred firing (.ofRule rule))
      (performDeferred (firing.over log) (.ofRule rule)) := by
  obtain ⟨hresult, halike⟩ := Action.agree_ofRule
    (Store.parallel_paired Network.listener firing.store.world log.world) (fun _ => trivial)
    rule.says_true (.inl trivial) { firing with store := firing.store.enter } (firing.over log.enter)
    (Firing.alike_over { firing with store := firing.store.enter } ⟨h.enter, rfl, rfl⟩)
  obtain ⟨hpaired, hworld, hdelivered⟩ := halike.store
  obtain ⟨hstores, hfollowed, hlogged, hfault, hnone⟩ := hpaired.leave
  rw [hworld] at hfollowed hfault
  rw [hdelivered] at hlogged
  refine ⟨_, hstores, hfollowed, hlogged, ?_, ?_⟩
  . exact congrArg (fun logged : Firing (List Change) =>
      ({ logged with store := logged.store.leave.1 } : Firing (List Change))) halike.eq_over
  . intro hok
    have hover : ({ firing.over log with store := (firing.over log).store.enter } : Firing (List Change))
        = firing.over log.enter := rfl
    simp only [performDeferred, hover, hresult]
    rw [hnone.trans (hfault.trans hok).symm]

theorem Performed.legal {firing : Firing} {log : Store (List Change)} {changes : List Change}
    {last : Firing × Option Fault} {logged : Firing (List Change) × Option Fault}
    (h : Performed firing log changes last logged) :
    Change.Legal (Change.replay [] log.world) changes := by
  have hlegal := h.stores.recorded.legal
  rw [h.stores.idle.1, List.append_nil, h.delivered, Change.legal_append] at hlegal
  exact hlegal.2

end Session
end ForwardChaining
