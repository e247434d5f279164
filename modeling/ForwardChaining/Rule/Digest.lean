import ForwardChaining.Json
import ForwardChaining.Rule.Spec
import ForwardChaining.Sha256

/-!
This module contains the digest of a rule set: a hash of the text of everything that is declared.
Predicates and scripts are left out; a computed value counts by its name.
-/

namespace ForwardChaining

/-- A text, or null. -/
def Json.optionalText : Option String → Json
  | some s => .text s
  | none => .null

def Json.texts (items : List String) : Json :=
  .array (items.map .text)

def Operand.canonical : Operand → Json
  | .literal value => value.canonical
  | .computed name _ => .text name

def FactTypeSpec.canonical (spec : FactTypeSpec) : Json :=
  .object [("name", .text spec.name),
    ("fields", match spec.fields with
      | some fields => Json.texts fields
      | none => .null),
    ("description", Json.optionalText spec.description)]

def CheckSpec.canonical (spec : CheckSpec) : Json :=
  .object [("field", .text spec.field), ("operator", .text spec.operator),
    ("value", spec.value.canonical)]

def canonicalCorrelations (correlations : List (String × String)) : Json :=
  .object (correlations.map fun (field, ref) => (field, .text ref))

def ConditionSpec.canonical : ConditionSpec → Json
  | .pattern spec =>
    .object [("kind", .text "pattern"), ("var", .text spec.var), ("fact_type", .text spec.factType),
      ("tests", .array (spec.tests.map (·.canonical)))]
  | .join spec =>
    .object [("kind", .text "join"), ("left", Json.optionalText spec.left),
      ("operator", .text spec.operator), ("right", Json.optionalText spec.right),
      ("variables", Json.texts spec.vars)]
  | .negation spec =>
    .object [("kind", .text "not"), ("fact_type", .text spec.factType),
      ("tests", .array (spec.tests.map (·.canonical))),
      ("match", canonicalCorrelations spec.correlations)]
  | .aggregate spec =>
    .object [("kind", .text "aggregate"), ("fact_type", .text spec.factType),
      ("function", .text spec.function), ("field", Json.optionalText spec.field),
      ("tests", .array (spec.tests.map (·.canonical))),
      ("match", canonicalCorrelations spec.correlations), ("operator", .text spec.operator),
      ("threshold", spec.threshold.canonical), ("bind", Json.optionalText spec.bind)]

def ActionSpec.canonical (spec : ActionSpec) : Json :=
  .object [("kind", .text spec.kind.name), ("target", Json.optionalText spec.target),
    ("field", Json.optionalText spec.field), ("value", spec.value.canonical),
    ("unique", .bool spec.unique), ("fact_type", Json.optionalText spec.factType),
    ("data", .object (spec.data.map fun (k, x) => (k, x.canonical))),
    ("text", Json.optionalText spec.text)]

def RuleSpec.canonical (spec : RuleSpec) : Json :=
  .object [("name", .text spec.name), ("priority", .int spec.priority),
    ("description", Json.optionalText spec.description),
    ("conditions", .array (spec.conditions.map (·.canonical))),
    ("actions", .array (spec.actions.map (·.canonical))),
    ("explanation", Json.optionalText spec.explanation),
    ("refire_on_change", .bool spec.refireOnChange)]

def RuleSetSpec.canonical (spec : RuleSetSpec) : Json :=
  .object [("name", .text spec.name), ("version", .text spec.version),
    ("fact_types", .array (spec.factTypes.map (·.canonical))),
    ("rules", .array (spec.rules.map (·.canonical)))]

namespace RuleSetSpec

def digestText (spec : RuleSetSpec) : String :=
  spec.canonical.render Json.canonical

/-- The first sixteen digits of the hash. -/
def digest (spec : RuleSetSpec) : String :=
  String.ofList ((Sha256.hexDigest spec.digestText).toList.take 16)

end RuleSetSpec
end ForwardChaining
