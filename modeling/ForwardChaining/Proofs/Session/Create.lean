import ForwardChaining.Proofs.Network.Start
import ForwardChaining.Proofs.Store.Log
import ForwardChaining.Session.Create

/-!
This module contains what a session is when it has been created.
-/

namespace ForwardChaining

namespace Session

/-- The session without facts whose network has just started. -/
def initial (options : SessionOptions) (settings : Settings) (journal : List LogEntry)
    (ruleSet : RuleSet) : Session where
  id := options.id
  ruleSet
  store := {
    table := { declared := some ruleSet.factTypes }
    listeners := [Network.listener]
    world := { (Network.ofRuleSet ruleSet).1 with
      journal := journal ++ (Network.ofRuleSet ruleSet).1.journal } }
  cycleLimit := options.cycleLimit.getD (.int settings.cycleLimit)
  timeBudget := options.timeBudget.or (settings.timeBudget.map .float)

variable {options : SessionOptions} {journal : List LogEntry} {ruleSet : RuleSet} {session : Session}

theorem ofRuleSet_eq_ok_iff : ofRuleSet options journal ruleSet = .ok session
    ↔ ∃ settings, Settings.ofEnvironment options.environment = .ok settings
      ∧ toZero .less (options.cycleLimit.getD (.int settings.cycleLimit)) = .ok false
      ∧ (Network.ofRuleSet ruleSet).2 = none
      ∧ initial options settings journal ruleSet = session := by
  unfold ofRuleSet initial
  simp only [doBind_eq_ok]
  cases Network.ofRuleSet ruleSet with
  | mk net fault =>
    constructor
    . rintro ⟨settings, hsettings, negative, hlimit, h⟩
      cases negative with
      | true => cases h
      | false =>
        cases fault with
        | some fault => cases h
        | none => exact ⟨settings, hsettings, hlimit, rfl, Except.ok.inj h⟩
    . rintro ⟨settings, hsettings, hlimit, rfl, rfl⟩
      exact ⟨settings, hsettings, false, hlimit, rfl⟩

theorem ofRuleSet_eq_ok (h : ofRuleSet options journal ruleSet = .ok session) :
    session.ruleSet = ruleSet ∧ session.store = {
      table := { declared := some ruleSet.factTypes }
      listeners := [Network.listener]
      world := { (Network.ofRuleSet ruleSet).1 with
        journal := journal ++ (Network.ofRuleSet ruleSet).1.journal } } := by
  obtain ⟨settings, -, -, -, rfl⟩ := ofRuleSet_eq_ok_iff.mp h
  exact ⟨rfl, rfl⟩

theorem recorded_ofRuleSet (h : ofRuleSet options journal ruleSet = .ok session) :
    session.store.listeners = [Network.listener] ∧ session.store.silent.Recorded := by
  rw [(ofRuleSet_eq_ok h).2]
  exact ⟨rfl, Store.recorded_silent ⟨.nil, by simp⟩ rfl rfl⟩

theorem ofEnvironment_nil : Settings.ofEnvironment [] = .ok {} :=
  rfl

/-- What is not given has its default where the environment is empty. -/
theorem ofRuleSet_default (h : ruleSet.WellFormed) (id : String) :
    ofRuleSet { id } [] ruleSet = .ok (initial { id } {} [] ruleSet) :=
  ofRuleSet_eq_ok_iff.mpr ⟨{}, ofEnvironment_nil, rfl, (Network.start_settled h).1, rfl⟩

theorem ofRuleSet_fresh (h : ofRuleSet options journal ruleSet = .ok session) :
    session.trace = [] ∧ session.cycle = 0 ∧ session.result = none := by
  obtain ⟨settings, -, -, -, rfl⟩ := ofRuleSet_eq_ok_iff.mp h
  exact ⟨rfl, rfl, rfl⟩

theorem ofRuleSet_cycleLimit (h : ofRuleSet options journal ruleSet = .ok session) {limit : Value}
    (hlimit : options.cycleLimit = some limit) : session.cycleLimit = limit := by
  obtain ⟨settings, -, -, -, rfl⟩ := ofRuleSet_eq_ok_iff.mp h
  rw [initial, hlimit]
  rfl

end Session
end ForwardChaining
