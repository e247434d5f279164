import ForwardChaining.Log
import ForwardChaining.Settings
import ForwardChaining.Value.Conversion

/-!
This module contains the rendering of log events as records: events below a threshold are left out, and
every record names its logger, its level and the component that the logger stands for.
-/

namespace ForwardChaining

structure Threshold where
  rank : Nat
deriving DecidableEq, Repr

namespace Threshold

def ranks : List (String × Nat) :=
  [("CRITICAL", 50), ("FATAL", 50), ("ERROR", 40), ("WARNING", 30), ("WARN", 30), ("INFO", 20),
    ("DEBUG", 10), ("NOTSET", 0)]

/-- The layout of a line, which has a name like a threshold. -/
def basicFormat : String :=
  "%(levelname)s:%(name)s:%(message)s"

/-- The table of the styles of layouts, which has a name like a threshold. -/
def styles : String :=
  "\x7b'%': (<class 'logging.PercentStyle'>, '" ++ basicFormat ++ "'), "
    ++ "'\x7b': (<class 'logging.StrFormatStyle'>, "
    ++ "'\x7blevelname\x7d:\x7bname\x7d:\x7bmessage\x7d'), "
    ++ "'$': (<class 'logging.StringTemplateStyle'>, "
    ++ "'$\x7blevelname\x7d:$\x7bname\x7d:$\x7bmessage\x7d')\x7d"

def ofName (name : String) : Except Fault Threshold :=
  let name := Text.upper name
  match ranks.lookup name with
  | some rank => .ok ⟨rank⟩
  | none =>
    if name == "BASIC_FORMAT" then .error (.unknownLevelText basicFormat)
    else if name == "_STYLES" then .error (.notLevel styles)
    else .error (.unknownLevel name)

/-- Does an event of this severity reach the threshold? -/
def admits (threshold : Threshold) (severity : Severity) : Bool :=
  threshold.rank ≤ severity.rank

end Threshold

/-- A way of logging: the name by which faults call it, and the severity. -/
structure LogMethod where
  name : String
  severity : Severity
deriving DecidableEq, Repr

def LogMethod.ofName (name : String) : Except Fault LogMethod :=
  match [("debug", LogMethod.mk "debug" .debug), ("info", ⟨"info", .info⟩),
      ("warning", ⟨"warning", .warning⟩), ("warn", ⟨"warning", .warning⟩),
      ("error", ⟨"error", .error⟩), ("exception", ⟨"exception", .error⟩),
      ("critical", ⟨"critical", .critical⟩), ("fatal", ⟨"fatal", .critical⟩)].lookup name with
  | some method => .ok method
  | none => .error (.noAttribute "BoundLogger" name)

/-- Does a value hold a point, so that it names a component? -/
def hasPoint : Value → Except Fault Bool
  | .text s => .ok (s.toList.contains '.')
  | .list items | .tuple items | .set items => .ok (Value.isIn (.text ".") items)
  | .record fields => .ok (fields.lookup ".").isSome
  | x => .error (.notContainer x.typeName)

/-- Tag an event with the component: what stands behind the first point in the name of its logger. -/
def withComponent (event : Fields) : Except Fault Fields := do
  let logger := (event.lookup "logger").getD (.text "")
  if ← hasPoint logger then
    match logger with
    | .text s =>
      return Fields.set event "component" (.text (((Text.cut? '.' s).map (·.2)).getD ""))
    | x => throw (.noAttribute x.typeName "split")
  else return event

mutual

/-- A value as it is after writing and reading JSON; a set is written as its literal. -/
def Value.rendered : Value → Value
  | .list items => .list (renderedItems items)
  | .tuple items => .list (renderedItems items)
  | .set items => .text (Value.set items).literal
  | .record fields => .record (renderedFields fields)
  | x => x
termination_by structural x => x

/-- Values as they are after writing and reading JSON. -/
def renderedItems : List Value → List Value
  | [] => []
  | x :: xs => Value.rendered x :: renderedItems xs
termination_by structural x => x

/-- Fields as they are after writing and reading JSON. -/
def renderedFields : List (String × Value) → List (String × Value)
  | [] => []
  | (k, x) :: xs => (k, Value.rendered x) :: renderedFields xs
termination_by structural x => x

end

/-- An event that is to be logged, with its named values. -/
structure LogCall where
  logger : String
  method : String
  /-- The event; null if there is none. -/
  event : Value
  values : Fields := []
deriving Repr, Inhabited

namespace LogCall

/-- The way of logging. The names of the values must be free, also if the event is left out. -/
def checked (call : LogCall) : Except Fault LogMethod := do
  let method ← LogMethod.ofName call.method
  call.values.requireFree ("BoundLogger." ++ method.name) ["self", "event"]
  call.values.requireFree "BoundLogger._proxy_to_logger" ["method_name"]
  return method

/--
The named values that are kept. Requests for the current error and for the place of the call add
nothing, and arguments for the event are left out unless they are null.
-/
def kept (call : LogCall) : Fields :=
  call.values.filter fun (k, x) =>
    match k, x with
    | "exc_info", _ | "stack_info", _ => false
    | "positional_args", .null => true
    | "positional_args", _ => false
    | _, _ => true

/-- A value under `_record` is taken for a finished record, which knows its logger; no value does. -/
def requireUnfinished (values : Fields) : Except Fault Unit :=
  match (values.lookup "_record").getD .null with
  | .null => .ok ()
  | x => .error (.noAttribute x.typeName "name")

/-- The record of an event. The time stands for itself. -/
def record (call : LogCall) (severity : Severity) (time : Value) : Except Fault Fields := do
  requireUnfinished call.values
  let event := match call.event with
    | .null => []
    | event => [("event", event)]
  let named : Fields :=
    [("logger", .text call.logger), ("level", .text severity.name), ("timestamp", time)]
  return renderedFields (← withComponent (Fields.merge call.kept (event ++ named)))

def recordAbove? (threshold : Threshold) (time : Value) (call : LogCall) :
    Except Fault (Option Fields) := do
  let method ← call.checked
  if threshold.admits method.severity then return some (← call.record method.severity time)
  else return none

end LogCall

/-- The records of the events that reach a threshold. -/
def logRecords (threshold : Threshold) (time : Value) (calls : List LogCall) :
    Except Fault (List Fields) := do
  return (← calls.mapM (·.recordAbove? threshold time)).filterMap id

/-- The threshold that the settings of an environment ask for. -/
def Threshold.ofEnvironment (env : Environment) : Except Fault Threshold := do
  Threshold.ofName (← Settings.ofEnvironment env).logLevel

end ForwardChaining
