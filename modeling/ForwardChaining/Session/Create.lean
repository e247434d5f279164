import ForwardChaining.Rule.Compile
import ForwardChaining.Session.Basic

/-!
This module contains the creation of sessions: from a compiled rule set or from a specification that is
compiled on the spot, with initial facts in several forms.
-/

namespace ForwardChaining

/-- An initial fact, as a source supplies it. -/
inductive InitialFact where
  /-- A checked fact. -/
  | checked (input : FactInput)
  /-- A record of a type and data, a pair of these, or something malformed. -/
  | supplied (source : Source)
deriving Repr, Inhabited

namespace InitialFact

def unpack (x : Value) : Except Fault (Value × Value) :=
  match x.elements? with
  | none => .error (.notUnpackable x.typeName)
  | some [tag, data] => .ok (tag, data)
  | some items =>
    if items.length < 2 then .error (.tooFewToUnpack items.length) else .error .tooManyToUnpack

def normalize : InitialFact → Except Fault FactInput
  | .checked input => .ok input
  | .supplied (.record fields) => Reader.factInput.run (.record fields)
  | .supplied source => do
    let (tag, data) ← unpack source.toValue
    Reader.accept (Reader.factOfEntries tag (← data.toEntries))

end InitialFact

/-- How a session is set up. What is not given is taken from the environment. -/
structure SessionOptions where
  id : String
  environment : Environment := []
  cycleLimit : Option Value := none
  timeBudget : Option Value := none
deriving Repr, Inhabited

namespace Session

def toZero (relation : Relation) (x : Value) : Except Fault Bool :=
  (Value.relate relation x (.int 0)).mapError (.unordered relation)

/-- A session without facts. Its log begins with some entries. -/
def ofRuleSet (options : SessionOptions) (journal : List LogEntry) (ruleSet : RuleSet) :
    Except Fault Session := do
  let settings ← Settings.ofEnvironment options.environment
  let cycleLimit := options.cycleLimit.getD (.int settings.cycleLimit)
  if ← toZero .less cycleLimit then throw .negativeCycleLimit
  match Network.ofRuleSet ruleSet with
  | (_, some fault) => throw fault
  | (net, none) =>
    return {
      id := options.id
      ruleSet
      store := {
        table := { declared := some ruleSet.factTypes }
        listeners := [Network.listener]
        world := { net with journal := journal ++ net.journal } }
      cycleLimit
      timeBudget := options.timeBudget.or (settings.timeBudget.map .float) }

def load (session : Session) : List InitialFact → Except Fault Session
  | [] => .ok session
  | item :: items => do
    let fact ← item.normalize
    match session.insert (.text fact.type) (.record fact.data) with
    | (session, .ok _) => load session items
    | (_, .error fault) => throw fault

def createFrom (options : SessionOptions) (journal : List LogEntry) (ruleSet : RuleSet)
    (facts : List InitialFact) : Except Fault Session := do
  let session ← ofRuleSet options journal ruleSet
  let session ← session.load facts
  return session.record (.created ruleSet.name ruleSet.rules.length
    session.store.table.live.length session.network.agenda.size)

def requireRuleSet (source : Source) : Except Fault α :=
  .error (.malformedRuleSet ["expected a compiled RuleSet, got " ++ source.typeName])

/-- Compile a specification, and create a session with initial facts. -/
def create (options : SessionOptions) (source : Source) (facts : List InitialFact) :
    Except Fault Session :=
  match source with
  | .record _ => do
    let spec ← RuleSetSpec.ofSource source
    createFrom options [spec.compileLog] (← spec.compile?) facts
  | source => requireRuleSet source

/-- How many workers there are: as many as asked for, unless this is zero, or as the settings say. -/
def workers (options : SessionOptions) (asked : Value) : Except Fault Value := do
  if asked.truthy then return asked
  else return .int (← Settings.ofEnvironment options.environment).maxWorkers

/-- Run independent sessions over one rule set. The results are in the order of the batches. -/
def runAll (options : SessionOptions) (maxWorkers : Value) (ruleSet : RuleSet)
    (batches : List (List InitialFact)) : Except Fault (List RunResult) := do
  if ← toZero .lessEq (← workers options maxWorkers) then throw .noWorkers
  batches.mapM fun facts => do
    let session ← createFrom options [] ruleSet facts
    session.run.2

end Session
end ForwardChaining
