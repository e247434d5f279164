import ForwardChaining.Schema.Reader
import ForwardChaining.Text.Case

/-!
This module contains the settings of the engine, which are read from environment variables. The names
of the variables begin with `RULEFLOW_`, in any case.
-/

namespace ForwardChaining

/-- The settings of the engine. -/
structure Settings where
  /-- How many activations a session fires at most. -/
  cycleLimit : Int := 1000
  /-- How many seconds a run takes at most. -/
  timeBudget : Option Binary64 := none
  /-- How many sessions run side by side. -/
  maxWorkers : Int := 4
  logLevel : String := "info"
  logJson : Bool := false
deriving Repr, Inhabited

abbrev Environment := List (String × String)

namespace Environment

/-- The value of a variable in any case; of several, the last one. -/
def get? (env : Environment) (name : String) : Option String :=
  (env.map fun (k, v) => (Text.lower k, v)).reverse.lookup (Text.lower name)

def sources (env : Environment) (fields : List String) : List (String × Source) :=
  fields.filterMap fun field => (env.get? ("ruleflow_" ++ field)).map fun s => (field, .text s)

end Environment

namespace Settings

def names : List String :=
  ["default_cycle_limit", "default_time_budget_s", "max_workers", "log_level", "log_json"]

def reader : Reader Settings :=
  Reader.record "EngineSettings" fun sources =>
    Settings.mk <$> Reader.withDefault "default_cycle_limit" 1000 Reader.integer sources
      <*> Reader.withDefault "default_time_budget_s" none (Reader.optional Reader.number) sources
      <*> Reader.withDefault "max_workers" 4 Reader.integer sources
      <*> Reader.withDefault "log_level" "info" Reader.text sources
      <*> Reader.withDefault "log_json" false Reader.boolean sources

def ofEnvironment (env : Environment) : Except Fault Settings :=
  reader.run (.record (env.sources names))

def toFields (settings : Settings) : Fields :=
  [("default_cycle_limit", .int settings.cycleLimit),
    ("default_time_budget_s", (settings.timeBudget.map .float).getD .null),
    ("max_workers", .int settings.maxWorkers),
    ("log_level", .text settings.logLevel),
    ("log_json", .bool settings.logJson)]

end Settings
end ForwardChaining
