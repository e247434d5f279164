import ForwardChaining.Value.Conversion

/-!
This module contains the errors of the engine as hosts make them by hand: a kind, and arguments that may
be any values. An error reports a code, a message and details.
-/

namespace ForwardChaining

/-- What is passed to a kind of error: the names of the arguments it needs, and of those it can do
without. -/
structure ErrorSignature where
  kind : String
  required : List String
  optional : List String := []
deriving DecidableEq, Repr

namespace ErrorSignature

def all : List ErrorSignature := [
  ⟨"RuleEngineError", ["code", "message"], ["details"]⟩,
  ⟨"NoSuchFact", ["fact_id"], ["message"]⟩,
  ⟨"StaleFactReference", ["fact_id"], []⟩,
  ⟨"MalformedRuleSet", ["problems"], []⟩,
  ⟨"UnknownFactType", ["fact_type"], ["fields"]⟩,
  ⟨"SessionStateError", ["message"], ["state"]⟩]

/-- The arguments, with null for those that are left out. -/
def bind (signature : ErrorSignature) (args : List Value) : Except Fault (List Value) :=
  let least := signature.required.length
  let most := least + signature.optional.length
  let callee := signature.kind ++ ".__init__"
  if args.length < least then
    .error (.missingArguments callee (signature.required.drop args.length))
  else if most < args.length then
    .error (.tooManyArguments callee (least + 1) (most + 1) (args.length + 1))
  else .ok (args ++ List.replicate (most - args.length) .null)

end ErrorSignature

/-- What an error of the engine reports. -/
structure ErrorReport where
  code : Value
  message : Value
  details : Value
  /-- Does the error say that a referenced fact is not there? -/
  isNoSuchFact : Bool := false
deriving Repr

namespace ErrorReport

def ofDetails (code : String) (message : Value) (details : Fields) : ErrorReport :=
  { code := .text code, message, details := .record details }

/-- No live fact has this identity. A message that counts as false is replaced. -/
def noSuchFact (ref message : Value) : ErrorReport :=
  let message := if message.truthy then message else .text (Fault.noSuchFact ref).message
  { ofDetails "NO_SUCH_FACT" message [("fact_id", ref)] with isNoSuchFact := true }

def staleReference (ref : Value) : ErrorReport :=
  let message := .text (Fault.staleReference ref).message
  { ofDetails "STALE_FACT_REFERENCE" message [("fact_id", ref)] with isNoSuchFact := true }

/-- The problems of a rule set. Only the first three are worded, so the others may be any values. -/
def malformedRuleSet (problems : Value) : Except Fault ErrorReport := do
  let some problems := problems.elements? | throw (.notIterable problems.typeName)
  let worded ← Fault.texts 0 (problems.take 3)
  return ofDetails "MALFORMED_RULE_SET"
    (.text ("Malformed rule set: " ++ Fault.summary worded (problems.length - 3)))
    [("problems", .list problems)]

/-- The fact type, or some fields of it, are not declared. -/
def unknownFactType (tag fields : Value) : Except Fault ErrorReport := do
  if fields.truthy then
    let some names := fields.elements? | throw .notJoinableAtAll
    let message := (Fault.unknownFactType tag (← Fault.texts 0 names)).message
    return ofDetails "UNKNOWN_FACT_TYPE" (.text message) [("fact_type", tag), ("fields", fields)]
  else
    let message := (Fault.unknownFactType tag []).message
    return ofDetails "UNKNOWN_FACT_TYPE" (.text message) [("fact_type", tag), ("fields", .list [])]

def ofBound (kind : String) (args : List Value) : Except Fault ErrorReport :=
  match kind, args with
  | "NoSuchFact", [ref, message] => .ok (noSuchFact ref message)
  | "StaleFactReference", [ref] => .ok (staleReference ref)
  | "MalformedRuleSet", [problems] => malformedRuleSet problems
  | "UnknownFactType", [tag, fields] => unknownFactType tag fields
  | "SessionStateError", [message, state] =>
    .ok (ofDetails "SESSION_STATE_ERROR" message [("state", state)])
  | _, [code, message, details] =>
    .ok { code, message, details := if details.truthy then details else .record [] }
  | kind, _ => .error (.missingKey (.text kind))

/-- The error that is made from the arguments of its kind. -/
def make (kind : String) (args : List Value) : Except Fault ErrorReport := do
  let some signature := ErrorSignature.all.find? (·.kind = kind) | throw (.missingKey (.text kind))
  ofBound kind (← signature.bind args)

end ErrorReport
end ForwardChaining
