import ForwardChaining.Fault

/-!
This module contains the events that the engine logs.
-/

namespace ForwardChaining

/-- How serious a logged event is. -/
inductive Severity where
  | debug
  | info
  | warning
  | error
  | critical
deriving DecidableEq, Repr, Inhabited

namespace Severity

def name : Severity → String
  | .debug => "debug"
  | .info => "info"
  | .warning => "warning"
  | .error => "error"
  | .critical => "critical"

def rank : Severity → Nat
  | .debug => 10
  | .info => 20
  | .warning => 30
  | .error => 40
  | .critical => 50

end Severity

/-- A logged event with its named values. -/
structure LogEntry where
  severity : Severity
  event : String
  values : Fields
deriving Repr, Inhabited

namespace LogEntry

/-- A predicate failed on some facts and counts as false. -/
def predicateFailed (predicate : String) (facts : List Int) (fault : Fault) : LogEntry :=
  ⟨.warning, "Predicate raised, treating as no match",
    [("predicate", .text predicate), ("fact_ids", .list (facts.map .int)),
      ("error", .text fault.message), ("error_type", .text fault.kind)]⟩

def rejected (ruleSet : String) (problems : Nat) : LogEntry :=
  ⟨.warning, "Rule set rejected", [("rule_set", .text ruleSet), ("problems", .int problems)]⟩

def compiled (ruleSet : String) (rules factTypes : Nat) (digest : String) : LogEntry :=
  ⟨.info, "Rule set compiled",
    [("rule_set", .text ruleSet), ("rules", .int rules), ("fact_types", .int factTypes),
      ("digest", .text digest)]⟩

def created (ruleSet : String) (rules facts pending : Nat) : LogEntry :=
  ⟨.info, "Session created",
    [("rule_set", .text ruleSet), ("rules", .int rules), ("facts", .int facts),
      ("pending", .int pending)]⟩

def halted (haltedBy : String) (cycles : Int) (pending : Nat) : LogEntry :=
  ⟨.warning, "Session halted before convergence",
    [("halted_by", .text haltedBy), ("cycles", .int cycles), ("pending", .int pending)]⟩

def finished (state : String) (cycles : Int) (facts : Nat) : LogEntry :=
  ⟨.info, "Session finished",
    [("state", .text state), ("cycles", .int cycles), ("facts", .int facts)]⟩

def aborted (rule : String) (cycle : Int) (status : String) (fault : Fault) : LogEntry :=
  ⟨.warning, "Activation aborted",
    [("rule", .text rule), ("cycle", .int cycle), ("status", .text status),
      ("error", .text fault.message)]⟩

def fired (rule : String) (cycle : Int) : LogEntry :=
  ⟨.debug, "Rule fired", [("rule", .text rule), ("cycle", .int cycle)]⟩

end LogEntry
end ForwardChaining
