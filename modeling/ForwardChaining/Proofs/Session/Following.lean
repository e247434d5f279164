import ForwardChaining.Proofs.Network.Pending
import ForwardChaining.Proofs.Store.Log
import ForwardChaining.Session.Basic

/-!
This module contains what holds of a store that a network follows, at any time: the network knows no fact
that is not live, as it was before the changes that are still queued, and its agenda is in step with its
matches. It does not matter whether following the changes failed.
-/

namespace ForwardChaining

/-- The listener leaves the world as it is. -/
def Listener.Watches (listener : Listener σ) : Prop :=
  ∀ change world, (listener change world).1 = world

namespace Change

theorem admissible_subset {facts facts' : List Fact} (h : facts ⊆ facts') {change : Change}
    (hadmissible : change.Admissible facts') : change.Admissible facts := by
  cases change with
  | inserted fact => exact fun other hother => hadmissible other (h hother)
  | updated fact previous =>
    exact ⟨hadmissible.1, hadmissible.2.1, fun other hother => hadmissible.2.2 other (h hother)⟩
  | retracted fact => exact fun other hother => hadmissible other (h hother)

end Change

namespace Store

variable {σ : Type}

/-- A listener follows the changes of the store, and those behind it only watch. -/
def FollowedBy (store : Store σ) (listener : Listener σ) : Prop :=
  ∃ others, store.listeners = listener :: others ∧ ∀ other ∈ others, other.Watches

section Watches

variable {listener : Listener σ} {others : List (Listener σ)}
  (h : ∀ other ∈ others, other.Watches) (change : Change) (world : σ)

include h

theorem deliver_watching : (deliver change world others).1 = world := by
  induction others generalizing world with
  | nil => rfl
  | cons other others ih =>
    rw [List.forall_mem_cons] at h
    have hworld := h.1 change world
    unfold deliver
    split
    . next heq => rw [← hworld, heq]
    . next heq => rw [ih h.2, ← hworld, heq]

theorem deliverToAll_watching : (deliverToAll change world others).1 = world := by
  induction others generalizing world with
  | nil => rfl
  | cons other others ih =>
    rw [List.forall_mem_cons] at h
    unfold deliverToAll
    dsimp only
    rw [ih h.2, h.1]

theorem deliver_followed :
    (deliver change world (listener :: others)).1 = (listener change world).1 := by
  unfold deliver
  split
  . next heq => rw [heq]
  . next heq => rw [deliver_watching h, heq]

theorem flush_followed (changes : List Change) :
    (flush (listener :: others) world changes).1 = listener.follow world changes := by
  induction changes generalizing world with
  | nil => rfl
  | cons change changes ih =>
    simp only [flush]
    rw [ih, deliverToAll, deliverToAll_watching h]
    rfl

end Watches

theorem exists_of_deliverToAll {change : Change} {world : σ} {listeners : List (Listener σ)}
    {fault : Fault} (h : (deliverToAll change world listeners).2 = some fault) :
    ∃ listener ∈ listeners, ∃ world, (listener change world).2 = some fault := by
  induction listeners generalizing world with
  | nil => cases h
  | cons listener listeners ih =>
    rcases Option.or_eq_some_iff.mp h with hfirst | ⟨-, hrest⟩
    . exact ⟨listener, by simp, world, hfirst⟩
    . obtain ⟨other, hother, hraises⟩ := ih hrest
      exact ⟨other, List.mem_cons_of_mem _ hother, hraises⟩

/-- What fails at the end of a block is the listener, on one of the changes, or one of those behind it. -/
theorem fault_of_flush {listener : Listener σ} {others : List (Listener σ)}
    (hwatch : ∀ other ∈ others, other.Watches) {world : σ} {changes : List Change} {fault : Fault}
    (hfault : (flush (listener :: others) world changes).2 = some fault) :
    (∃ seen change more, changes = seen ++ change :: more
        ∧ (listener change (listener.follow world seen)).2 = some fault)
      ∨ ∃ other ∈ others, ∃ change ∈ changes, ∃ world, (other change world).2 = some fault := by
  induction changes generalizing world with
  | nil => cases hfault
  | cons change changes ih =>
    simp only [flush, deliverToAll, deliverToAll_watching hwatch] at hfault
    rcases Option.or_eq_some_iff.mp hfault with hfirst | ⟨-, hrest⟩
    . rcases Option.or_eq_some_iff.mp hfirst with hown | ⟨-, hothers⟩
      . exact .inl ⟨[], change, changes, rfl, hown⟩
      . obtain ⟨other, hother, world', hraises⟩ := exists_of_deliverToAll hothers
        exact .inr ⟨other, hother, change, List.mem_cons_self, world', hraises⟩
    . rcases ih hrest with ⟨seen, next, more, rfl, hown⟩ | ⟨other, hother, next, hnext, hraises⟩
      . exact .inl ⟨change :: seen, next, more, rfl, hown⟩
      . exact .inr ⟨other, hother, next, List.mem_cons_of_mem _ hnext, hraises⟩

end Store

namespace Network

/--
What holds of the network of a rule set whatever it follows: it knows none but these facts, and the same
has fired.
-/
structure Kept (ruleSet : RuleSet) (fired : List RefractionKey) (seen : List Fact) (net : Network) :
    Prop where
  same : net.ruleSet = ruleSet
  marked : net.fired = fired
  patterns : ∀ alpha ∈ net.working.alphas, IsPatternOf ruleSet.rules alpha.filter
  sound : net.Sound
  scheduled : net.Scheduled fun _ _ => False
  known : net.working.facts ⊆ seen

variable {ruleSet : RuleSet} {fired : List RefractionKey} {seen : List Fact} {net : Network}

theorem Kept.onChange (h : net.Kept ruleSet fired seen) {change : Change}
    (hadmissible : change.Admissible seen) :
    (net.onChange change).1.Kept ruleSet fired (change.applied seen) := by
  have hadmissible' := Change.admissible_subset h.known hadmissible
  obtain ⟨hsound, hsame⟩ := sound_onChange h.sound hadmissible'
  exact ⟨hsame.ruleSet.trans h.same, (fired_onChange h.sound hadmissible').trans h.marked,
    hsame.forall_filters h.patterns, hsound, scheduled_onChange h.scheduled h.sound hadmissible',
    known_onChange h.sound hadmissible' h.known⟩

theorem Kept.follow (h : net.Kept ruleSet fired seen) {changes : List Change}
    (hlegal : Change.Legal seen changes) :
    (listener.follow net changes).Kept ruleSet fired (Change.replay seen changes) := by
  induction changes generalizing net seen with
  | nil => exact h
  | cons change changes ih => exact ih (h.onChange hlegal.1) hlegal.2.2

theorem Kept.frame (h : net.Kept ruleSet fired seen) {fired' : List RefractionKey} {net' : Network}
    (hruleSet : net'.ruleSet = net.ruleSet) (hworking : net'.working = net.working)
    (hmemories : net'.memories = net.memories) (hfired : net'.fired = fired')
    (hscheduled : net'.Scheduled fun _ _ => False) : net'.Kept ruleSet fired' seen := by
  refine ⟨hruleSet.trans h.same, hfired, ?_, h.sound.frame hruleSet hworking hmemories, hscheduled, ?_⟩
  . rw [hworking]
    exact h.patterns
  . rw [hworking]
    exact h.known

theorem kept_ofRuleSet (h : ruleSet.WellFormed) : (ofRuleSet ruleSet).1.Kept ruleSet [] [] := by
  obtain ⟨-, hsound, hkeeps, -⟩ := start_settled h
  refine ⟨hkeeps.ruleSet, hkeeps.fired, ?_, hsound, scheduled_ofRuleSet h, ?_⟩
  . rw [hkeeps.working]
    exact fun alpha halpha => (patterns_of_blank alpha halpha).2
  . rw [hkeeps.working]
    exact List.Subset.refl _

end Network

namespace Store

/-- A network follows the store: it knows what the changes in the queue have not happened to yet. -/
structure Attended (ruleSet : RuleSet) (fired : List RefractionKey) (store : Store Network) : Prop where
  listeners : store.FollowedBy Network.listener
  table : store.table.WellFormed
  kept : ∃ seen, Change.Legal seen store.pending
    ∧ (Change.replay seen store.pending).Perm store.table.live ∧ store.world.Kept ruleSet fired seen
  idle : store.depth = 0 → store.pending = []

variable {ruleSet : RuleSet} {fired : List RefractionKey} {store : Store Network}
  (h : store.Attended ruleSet fired)

include h

theorem Attended.subscribe {listener : Listener Network} (hwatches : listener.Watches) :
    (store.subscribe listener).Attended ruleSet fired := by
  obtain ⟨others, hlisteners, hothers⟩ := h.listeners
  refine ⟨⟨others ++ [listener], by rw [Store.subscribe, hlisteners]; rfl, ?_⟩, h.table, h.kept, h.idle⟩
  rw [List.forall_mem_append, List.forall_mem_singleton]
  exact ⟨hothers, hwatches⟩

theorem Attended.after {table' : FactTable} {change? : Option Change}
    (hfollows : store.table.Follows table' change?) :
    (store.after table' change?).Attended ruleSet fired := by
  have htable := hfollows.wellFormed h.table
  obtain ⟨seen, hlegal, hlive, hkept⟩ := h.kept
  obtain ⟨others, hlisteners, hwatch⟩ := h.listeners
  cases change? with
  | none =>
    refine ⟨h.listeners, htable, ⟨seen, hlegal, ?_, hkept⟩, h.idle⟩
    rw [Store.after, hfollows.1]
    exact hlive
  | some change =>
    obtain ⟨hadmissible, htakes, hleaves⟩ := hfollows.change h.table
    have hadmissible' := Change.admissible_perm hlive.symm hadmissible
    have hlive' := (Change.applied_perm hlive change).trans hleaves
    simp only [Store.after, emit]
    split
    . next hdepth =>
      have hpending := h.idle hdepth
      rw [hpending] at hlive' hadmissible'
      rw [hlisteners]
      dsimp only
      rw [deliver_followed hwatch]
      refine ⟨⟨others, rfl, hwatch⟩, htable, ⟨change.applied seen, ?_, ?_,
        hkept.onChange hadmissible'⟩, h.idle⟩ <;> dsimp only <;> rw [hpending]
      . trivial
      . exact hlive'
    . next hdepth =>
      refine ⟨h.listeners, htable, ⟨seen, ?_, ?_, hkept⟩, fun hzero => absurd hzero hdepth⟩
      . rw [Change.legal_append]
        exact ⟨hlegal, hadmissible', fun fact hfact => hlive.mem_iff.mpr (htakes fact hfact), trivial⟩
      . rw [Change.replay_append]
        exact hlive'

theorem Attended.enter : store.enter.Attended ruleSet fired :=
  ⟨h.listeners, h.table, h.kept, fun hzero => by cases hzero⟩

theorem Attended.leave : store.leave.1.Attended ruleSet fired := by
  obtain ⟨seen, hlegal, hlive, hkept⟩ := h.kept
  obtain ⟨others, hlisteners, hwatch⟩ := h.listeners
  unfold Store.leave
  split
  . dsimp only
    rw [hlisteners, flush_followed hwatch]
    exact ⟨⟨others, rfl, hwatch⟩, h.table, ⟨_, trivial, hlive, hkept.follow hlegal⟩, fun _ => rfl⟩
  . next hdepth =>
    refine ⟨h.listeners, h.table, h.kept, ?_⟩
    intro hzero
    exact False.elim (hdepth (by change store.depth - 1 = 0 at hzero; omega))

theorem Attended.apply (mutation : Mutation) : (store.apply mutation).1.Attended ruleSet fired := by
  rcases apply_cases mutation store.table with ⟨table', change?, hfollows, heq⟩ | heq | heq
  . rw [heq _ store rfl]
    exact h.after hfollows
  . rw [heq]
    exact h.enter
  . rw [heq]
    exact h.leave

theorem Attended.mapWorld {fired' : List RefractionKey} {net : Network}
    (hnet : ∀ seen, store.world.Kept ruleSet fired seen → net.Kept ruleSet fired' seen) :
    ({ store with world := net } : Store Network).Attended ruleSet fired' := by
  obtain ⟨seen, hlegal, hlive, hkept⟩ := h.kept
  exact ⟨h.listeners, h.table, ⟨seen, hlegal, hlive, hnet seen hkept⟩, h.idle⟩

theorem Attended.known (hpending : store.pending = []) :
    store.world.Kept ruleSet fired store.table.live := by
  obtain ⟨seen, -, hlive, hkept⟩ := h.kept
  rw [hpending] at hlive
  exact { hkept with known := fun fact hfact => hlive.mem_iff.mp (hkept.known hfact) }

end Store
end ForwardChaining
