import ForwardChaining.Proofs.Network.Equivalence
import ForwardChaining.Proofs.Session.History

/-!
This module contains which live facts the network of a session knows: none but live ones, and all of them as
long as no change fails. An update whose old snapshot could not be taken away is lost.
-/

namespace ForwardChaining

namespace Store

/-- The network knows all facts, as they were before the changes that are still queued. -/
def Informed (store : Store Network) : Prop :=
  ∃ seen, Change.Legal seen store.pending
    ∧ (Change.replay seen store.pending).Perm store.table.live ∧ store.world.working.facts.Perm seen

section Informed

variable {ruleSet : RuleSet} {fired : List RefractionKey} {store : Store Network}

theorem fault_of_deliver {listener : Listener σ} {others : List (Listener σ)} {change : Change}
    {world : σ} (h : (deliver change world (listener :: others)).2 = none) :
    (listener change world).2 = none := by
  unfold deliver at h
  split at h
  . cases h
  . next heq => rw [heq]

theorem flush_cons_eq_none {listener : Listener σ} {others : List (Listener σ)} {change : Change}
    {changes : List Change} {world : σ}
    (h : (flush (listener :: others) world (change :: changes)).2 = none) :
    (listener change world).2 = none
      ∧ (flush (listener :: others) (deliverToAll change world (listener :: others)).1 changes).2
        = none := by
  simp only [flush, deliverToAll, Option.or_eq_none_iff] at h
  exact ⟨h.1.1, h.2⟩

theorem informed_flush {others : List (Listener Network)} (hwatch : ∀ other ∈ others, other.Watches)
    {net : Network} {seen : List Fact} (hkept : net.Kept ruleSet fired seen) {changes : List Change}
    (hlegal : Change.Legal seen changes) (hfacts : net.working.facts.Perm seen)
    (hok : (flush (Network.listener :: others) net changes).2 = none) :
    (Network.listener.follow net changes).working.facts.Perm (Change.replay seen changes) := by
  induction changes generalizing net seen with
  | nil => exact hfacts
  | cons change changes ih =>
    obtain ⟨hadmissible, -, hlegal⟩ := hlegal
    obtain ⟨hfirst, hrest⟩ := flush_cons_eq_none hok
    rw [deliverToAll, deliverToAll_watching hwatch] at hrest
    have hadmissible' := Change.admissible_subset hkept.known hadmissible
    apply ih (hkept.onChange hadmissible) hlegal _ hrest
    rw [Network.facts_onChange hkept.sound hadmissible' hfirst]
    exact Change.applied_perm hfacts change

theorem Informed.apply (h : store.Attended ruleSet fired) (hinformed : store.Informed)
    {mutation : Mutation} (hok : (store.apply mutation).2 = none) :
    (store.apply mutation).1.Informed := by
  obtain ⟨known, hlegal, hlive, hkept⟩ := h.kept
  obtain ⟨others, hlisteners, hwatch⟩ := h.listeners
  obtain ⟨seen, hlegal', hlive', hfacts⟩ := hinformed
  have hkept' : store.world.Kept ruleSet fired seen :=
    { hkept with known := fun fact hfact => hfacts.mem_iff.mp hfact }
  -- No change, a change, a batch that opens, a batch that closes.
  rcases apply_eq mutation store with ⟨table', fault?, hfollows, heq⟩ | ⟨table', change, hfollows, heq⟩ |
    heq | heq
  . rw [heq]
    exact ⟨seen, hlegal', by rw [hfollows.1]; exact hlive', hfacts⟩
  . obtain ⟨hadmissible, htakes, hleaves⟩ := hfollows.change h.table
    have hadmissible' := Change.admissible_perm hlive'.symm hadmissible
    have happlied := (Change.applied_perm hlive' change).trans hleaves
    rw [heq] at hok ⊢
    unfold emit at hok ⊢
    split
    . next hdepth =>
      have hpending := h.idle hdepth
      rw [hpending] at happlied hadmissible'
      rw [if_pos hdepth] at hok
      rw [hlisteners] at hok ⊢
      have hfollowed : (Network.listener change store.world).2 = none := fault_of_deliver hok
      dsimp only
      rw [deliver_followed hwatch]
      refine ⟨change.applied seen, ?_, ?_, ?_⟩
      . rw [hpending]
        trivial
      . rw [hpending]
        exact happlied
      . have hknown := Change.admissible_subset hkept'.known hadmissible'
        have happlies := Network.facts_onChange hkept'.sound hknown hfollowed
        exact happlies ▸ Change.applied_perm hfacts change
    . refine ⟨seen, ?_, ?_, hfacts⟩
      . rw [Change.legal_append]
        exact ⟨hlegal', hadmissible', fun fact hfact => hlive'.mem_iff.mpr (htakes fact hfact), trivial⟩
      . rw [Change.replay_append]
        exact happlied
  . rw [heq]
    exact ⟨seen, hlegal', hlive', hfacts⟩
  . rw [heq] at hok ⊢
    unfold Store.leave at hok ⊢
    split
    . next hdepth =>
      rw [if_pos hdepth] at hok
      rw [hlisteners] at hok ⊢
      refine ⟨_, trivial, hlive', ?_⟩
      dsimp only
      rw [flush_followed hwatch]
      exact informed_flush hwatch hkept' hlegal' hfacts hok
    . exact ⟨seen, hlegal', hlive', hfacts⟩

end Informed

end Store

namespace Session

section Informed

variable {ruleSet : RuleSet}

theorem informed_created {options : SessionOptions} {journal : List LogEntry} {session : Session}
    (hwellFormed : ruleSet.WellFormed) (h : ofRuleSet options journal ruleSet = .ok session) :
    session.store.Informed := by
  obtain ⟨-, -, -, hfacts⟩ := Network.faithful_start hwellFormed
  rw [(ofRuleSet_eq_ok h).2]
  refine ⟨[], trivial, .nil, ?_⟩
  dsimp only
  rw [hfacts]

variable {spec : RuleSetSpec} (hcompile : spec.compile = .ok ruleSet) {fired : List Activation}
  {session : Session} (h : History ruleSet fired session)

include hcompile h

/--
With nothing in the queue, the network knows live facts only; each change is known after it was followed,
but for an update that fails while its old snapshot is taken away, and what is not known cannot be taken
away any more. A network that knows all live facts knows them after every operation that does not fail.
-/
theorem knows_live :
    (session.store.pending = [] → session.network.working.facts ⊆ session.store.table.live
      ∧ (session.store.Informed → session.network.working.facts.Perm session.store.table.live)
      ∧ (∀ change, change.Admissible session.store.table.live →
        (session.network.onChange change).1.working.facts
            = change.applied session.network.working.facts
          ∨ ∃ fact previous fault, change = .updated fact previous
            ∧ (session.network.retract previous).2 = some fault)
      ∧ ∀ fact ∈ session.store.table.live, Unused fact.id session.network.working.facts →
        (session.network.retract fact).2 = some (.missingKey (.int fact.id)))
    ∧ (session.store.Informed → ∀ mutation, (session.store.apply mutation).2 = none →
      (session.store.apply mutation).1.Informed) := by
  have hattended := (h.consistent (wellFormed_of_compile hcompile)).attended
  refine ⟨?_, fun hinformed mutation hok => hinformed.apply hattended hok⟩
  intro hpending
  have hkept : session.network.Kept ruleSet _ session.store.table.live := hattended.known hpending
  refine ⟨hkept.known, ?_, ?_, ?_⟩
  . rintro ⟨seen, -, hlive, hfacts⟩
    rw [hpending] at hlive
    exact hfacts.trans hlive
  . intro change hadmissible
    have hadmissible' := Change.admissible_subset hkept.known hadmissible
    rcases Network.facts_onChange_cases hkept.sound hadmissible' with
      heq | ⟨fact, previous, fault, heq, hretract, -⟩
    . exact .inl heq
    . exact .inr ⟨fact, previous, fault, heq, hretract⟩
  . intro fact _ hunused
    rw [Network.retract_eq hkept.sound, if_pos hunused]

end Informed

/-! ### A session that loses a fact -/

/-- The values of all items reach zero. -/
def totalSpec : RuleSetSpec where
  factTypes := [{ name := "item" }]
  rules := [{
    name := "total"
    conditions := [.aggregate {
      factType := "item", function := "sum", field := some "value", threshold := .int 0 }] }]

def totalRules : List Rule := [{
  name := "total"
  conditions := [.aggregate { type := "item" } []
    { function := .sum, field := some "value", threshold := .int 0 }] }]

def totalRuleSet (digest : String) : RuleSet where
  factTypes := [{ name := "item" }]
  rules := totalRules
  index := .build totalRules
  digest

theorem compile_totalSpec : totalSpec.compile = .ok (totalRuleSet totalSpec.digest) :=
  compile_eq_ok.mpr ⟨_, _, rfl, by cbv, rfl⟩

/-- The session before it has facts. -/
def totalSession (digest : String) : Session where
  id := "s"
  ruleSet := totalRuleSet digest
  store := {
    table := { declared := some [{ name := "item" }] }
    listeners := [Network.listener]
    world := (Network.ofRuleSet (totalRuleSet digest)).1 }
  cycleLimit := .int 1000

/--
While there are infinities of both signs there is no sum, and each change fails. That is so when the old
snapshot of the third item goes, and the new one does not come.
-/
def opposites : List Mutation := [
  .insert (.text "item") (.record [("value", .float (.infinite false))]),
  .insert (.text "item") (.record [("value", .float (.infinite true))]),
  .insert (.text "item") (.record [("value", .float (.infinite false))]),
  .update (.int 3) (.record []),
  .retract (.int 1)]

/-- The session after these changes. -/
def lostSession (digest : String) : Session :=
  { totalSession digest with store := (totalSession digest).store.applyAll opposites }

theorem ofRuleSet_total : ofRuleSet { id := "s" } [] (totalRuleSet totalSpec.digest)
    = .ok (totalSession totalSpec.digest) :=
  ofRuleSet_default (wellFormed_of_compile compile_totalSpec) "s"

/-- The third item is live, but the network has lost it, so that it can neither be updated nor retracted. -/
theorem fact_lost : totalSpec.compile = .ok (totalRuleSet totalSpec.digest)
    ∧ History (totalRuleSet totalSpec.digest) [] (lostSession totalSpec.digest)
    ∧ (lostSession totalSpec.digest).store.pending = []
    ∧ (lostSession totalSpec.digest).store.table.live.map (·.id) = [2, 3]
    ∧ (lostSession totalSpec.digest).network.working.facts.map (·.id) = [2]
    ∧ ((lostSession totalSpec.digest).store.apply (.update (.int 3) (.record []))).2
      = some (.missingKey (.int 3)) := by
  obtain ⟨hpending, hlive, hfacts⟩ : (lostSession totalSpec.digest).store.pending = []
      ∧ (lostSession totalSpec.digest).store.table.live.map (·.id) = [2, 3]
      ∧ (lostSession totalSpec.digest).network.working.facts.map (·.id) = [2] := by
    decide +kernel
  have hmissing : ∀ digest, ((lostSession digest).store.apply (.update (.int 3) (.record []))).2
      = some (.missingKey (.int 3)) := by
    intro digest
    cbv
  exact ⟨compile_totalSpec, (History.created ofRuleSet_total).applyAll opposites, hpending, hlive,
    hfacts, hmissing _⟩

/-- The first item is followed without a fault, and then the network knows it. -/
theorem knows_live_total :
    ((totalSession totalSpec.digest).store.apply
        (.insert (.text "item") (.record [("value", .float (.infinite false))]))).1.Informed := by
  have hok : ((totalSession totalSpec.digest).store.apply
      (.insert (.text "item") (.record [("value", .float (.infinite false))]))).2.isNone := by
    decide +kernel
  obtain ⟨-, hinformed⟩ := knows_live compile_totalSpec (History.created ofRuleSet_total)
  exact hinformed (informed_created (wellFormed_of_compile compile_totalSpec) ofRuleSet_total) _
    (Option.isNone_iff_eq_none.mp hok)

end Session
end ForwardChaining
