import ForwardChaining.Agenda
import ForwardChaining.Fact.Schema
import ForwardChaining.Json
import ForwardChaining.Value.Report
import ForwardChaining.Yaml.Writer

/-!
This module contains the audit record of a run. Every activation that is selected leaves exactly one
entry in the trace, whether its action succeeded or not.
-/

namespace ForwardChaining

inductive TerminalState where
  | running
  | converged
  | cycleLimitExceeded
deriving DecidableEq, Repr, Inhabited

namespace TerminalState

def name : TerminalState → String
  | .running => "running"
  | .converged => "converged"
  | .cycleLimitExceeded => "cycle_limit_exceeded"

def all : List TerminalState :=
  [.running, .converged, .cycleLimitExceeded]

end TerminalState

inductive FiringStatus where
  | fired
  | failed
  /-- The action referred to a fact retracted earlier in the same cycle. -/
  | stale
deriving DecidableEq, Repr, Inhabited

namespace FiringStatus

def name : FiringStatus → String
  | .fired => "fired"
  | .failed => "failed"
  | .stale => "stale"

def all : List FiringStatus :=
  [.fired, .failed, .stale]

/-- How a firing ends that a fault cut short, or none. -/
def ofFault? : Option Fault → FiringStatus
  | none => .fired
  | some (.staleReference _) => .stale
  | some _ => .failed

end FiringStatus

/-- Why a run stopped before it converged. -/
inductive Halt where
  | cycleLimit
  | timeBudget
deriving DecidableEq, Repr, Inhabited

def Halt.name : Halt → String
  | .cycleLimit => "cycle_limit"
  | .timeBudget => "time_budget"

structure TraceEntry where
  /-- The cycle in which the activation fired, counted from one. -/
  cycle : Int
  rule : String
  /-- The bound identities in the order of the patterns. -/
  token : Token := []
  /-- The reasons that the rule gave. -/
  explanation : String := ""
  status : FiringStatus := .fired
  /-- The message of the fault that aborted the action. -/
  error : Option String := none
  /-- The kind of the fault that aborted the action. -/
  errorKind : Option String := none
deriving DecidableEq, Repr, Inhabited

namespace TraceEntry

def succeeded (entry : TraceEntry) : Bool :=
  entry.status = .fired

def toFields (entry : TraceEntry) : Fields :=
  let optional (s : Option String) : Value := (s.map .text).getD .null
  [("cycle_number", .int entry.cycle),
    ("rule_name", .text entry.rule),
    ("bound_fact_identities", .list (entry.token.map .int)),
    ("explanation_text", .text entry.explanation),
    ("status", .text entry.status.name),
    ("error", optional entry.error),
    ("error_type", optional entry.errorKind)]

end TraceEntry

def Fact.toFields (fact : Fact) : Except Fault Fields := do
  let data ← fact.data.reported
  return [("fact_id", .int fact.id), ("fact_type", .text fact.type), ("data", .record data),
    ("version", .int fact.version), ("recency", .int fact.recency)]

structure RunResult where
  session : String
  state : TerminalState
  /-- The live facts at the end, by ascending identity. -/
  facts : List Fact := []
  trace : List TraceEntry := []
  /-- How many activations fired. -/
  cycles : Int := 0
  /-- Why the run stopped before it converged. -/
  haltedBy : Option String := none
  /-- The duration of the run in milliseconds. -/
  elapsed : Binary64 := .zero false
  /-- The digest of the rule set. -/
  digest : Option String := none
deriving Repr, Inhabited

namespace RunResult

/-- Did the run end because nothing was left to fire? -/
def converged (result : RunResult) : Bool :=
  result.state = .converged

/-- The rules whose actions ran to their end, in firing order. -/
def firedRules (result : RunResult) : List String :=
  (result.trace.filter (·.succeeded)).map (·.rule)

/-- The explanations that are not empty, in firing order. -/
def explanations (result : RunResult) : List String :=
  (result.trace.map (·.explanation)).filter (· ≠ "")

def failures (result : RunResult) : List TraceEntry :=
  result.trace.filter (!·.succeeded)

def factsOf (result : RunResult) (type : String) : List Fact :=
  result.facts.filter (·.type = type)

/-- The result as a record, unless the data of a fact cannot be reported. -/
def toFields (result : RunResult) : Except Fault Fields := do
  let optional (s : Option String) : Value := (s.map .text).getD .null
  let facts ← result.facts.mapM (·.toFields)
  return [("session_id", .text result.session),
    ("terminal_state", .text result.state.name),
    ("final_facts", .list (facts.map .record)),
    ("trace", .list (result.trace.map fun entry => .record entry.toFields)),
    ("cycles", .int result.cycles),
    ("halted_by", optional result.haltedBy),
    ("elapsed_ms", .float result.elapsed),
    ("rule_set_digest", optional result.digest)]

def toYaml (result : RunResult) : Except Fault String := do
  let fields ← result.toFields
  if Value.writableFields fields then return Yaml.document fields else throw .integerTooLong

end RunResult

namespace Reader

def traceEntry : Reader TraceEntry :=
  record "TraceEntry" fun sources =>
    TraceEntry.mk <$> required "cycle_number" integer sources
      <*> required "rule_name" text sources
      <*> withDefault "bound_fact_identities" [] (list integer) sources
      <*> withDefault "explanation_text" "" text sources
      <*> withDefault "status" .fired (member (FiringStatus.all.map fun s => (s.name, s))) sources
      <*> withDefault "error" none (optional text) sources
      <*> withDefault "error_type" none (optional text) sources

def runResult : Reader RunResult :=
  record "RunResult" fun sources =>
    RunResult.mk <$> required "session_id" text sources
      <*> required "terminal_state" (member (TerminalState.all.map fun s => (s.name, s))) sources
      <*> withDefault "final_facts" [] (list fact) sources
      <*> withDefault "trace" [] (list traceEntry) sources
      <*> withDefault "cycles" 0 integer sources
      <*> withDefault "halted_by" none (optional text) sources
      <*> withDefault "elapsed_ms" (.zero false) number sources
      <*> withDefault "rule_set_digest" none (optional text) sources

end Reader
end ForwardChaining
