import ForwardChaining.Proofs.Network.Recount

/-!
This module contains what the memories of a session's network hold as long as matching raises nothing: after
every change that is delivered, a recount of the facts that the network knows gives the same. Numbers that
are equal are kept as the one that came first, so what an aggregate holds is compared as numbers.
-/

namespace ForwardChaining
namespace Session

section Recount

variable {spec : RuleSetSpec} {ruleSet : RuleSet} (hcompile : spec.compile = .ok ruleSet)
  {options : SessionOptions} {journal : List LogEntry} {session : Session}
  (hsession : ofRuleSet options journal ruleSet = .ok session)

include hcompile hsession

omit hcompile in
theorem legal_delivered (mutations : List Mutation) :
    Change.Legal [] (session.store.delivered mutations) :=
  (Change.legal_append.mp ((recorded_ofRuleSet hsession).2.applyAll mutations).legal).1

theorem intact_follow {changes : List Change} (hlegal : Change.Legal [] changes)
    (hquiet : session.network.Quiet changes) :
    session.network.Intact (Network.listener.follow session.network changes)
      ∧ (Network.listener.follow session.network changes).working.facts = Change.replay [] changes := by
  obtain ⟨hfaithful, -, hfacts⟩ := faithful_ofRuleSet (wellFormed_of_compile hcompile) hsession
  rw [← hfacts] at hlegal ⊢
  exact (Network.Intact.start hfaithful.sound hfaithful.settled hfacts).follow hlegal hquiet

theorem quiet_delivered (hpredicates : SharesPredicates ruleSet.rules) {mutations : List Mutation}
    (hregular : ∀ change ∈ session.store.delivered mutations, ∀ fact ∈ change.brings,
      fact.Regular ruleSet.rules) : session.network.Quiet (session.store.delivered mutations) := by
  obtain ⟨hfaithful, hruleSet, hfacts⟩ := faithful_ofRuleSet (wellFormed_of_compile hcompile) hsession
  have hlegal := legal_delivered hsession mutations
  rw [← hruleSet] at hpredicates hregular
  rw [← hfacts] at hlegal
  exact Network.quiet_of_regular hfaithful hpredicates hlegal hregular

end Recount

/-- Orders and a payment that come and go. An order is changed so that it counts under another amount. -/
def passingMutations : List Mutation := [
  .enter,
  .insert (.text "order") (.record [("id", .int 7), ("amount", .int 1)]),
  .insert (.text "order") (.record [("id", .int 8), ("amount", .int 2)]),
  .leave,
  .insert (.text "payment") (.record [("of", .int 7)]),
  .modify (.int 1) [("amount", .int 4)],
  .retract (.int 3),
  .retract (.int 1),
  .retract (.int 2)]

end Session
end ForwardChaining
