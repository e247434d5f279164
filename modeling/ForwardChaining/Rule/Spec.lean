import ForwardChaining.Rule.Basic
import ForwardChaining.Schema.Reader

/-!
This module contains rule set specifications, as rule authors write them, and their schemas.
-/

namespace ForwardChaining

/-- The declaration of a fact type. -/
structure FactTypeSpec where
  name : String
  fields : Option (List String) := none
  description : Option String := none
deriving Repr, Inhabited

structure CheckSpec where
  field : String
  operator : String := "=="
  value : Value := .null
deriving Repr, Inhabited

/-- Bind a variable to a fact that passes the tests. -/
structure PatternSpec where
  var : String
  factType : String
  tests : List CheckSpec := []
  predicate : Option Callable := none
deriving Repr, Inhabited

/-- A test across variables that are bound already. -/
structure JoinSpec where
  left : Option String := none
  operator : String := "=="
  right : Option String := none
  predicate : Option Callable := none
  vars : List String := []
deriving Repr, Inhabited

/-- No fact that passes the tests exists. -/
structure NegationSpec where
  factType : String
  tests : List CheckSpec := []
  predicate : Option Callable := none
  /-- Fields of the absent fact, and the bound fields they would equal. -/
  correlations : List (String × String) := []
deriving Repr, Inhabited

/-- An aggregate of the facts that pass the tests, compared with a threshold. -/
structure AggregateSpec where
  factType : String
  function : String := "count"
  field : Option String := none
  tests : List CheckSpec := []
  predicate : Option Callable := none
  correlations : List (String × String) := []
  operator : String := ">="
  threshold : Value := .null
  bind : Option String := none
deriving Repr, Inhabited

inductive ConditionSpec where
  | pattern (spec : PatternSpec)
  | join (spec : JoinSpec)
  | negation (spec : NegationSpec)
  | aggregate (spec : AggregateSpec)
deriving Repr, Inhabited

/-- The kinds of declarative actions. -/
inductive ActionKind where
  | set
  | append
  | insert
  | retract
  | explain
deriving DecidableEq, Repr, Inhabited

namespace ActionKind

def name : ActionKind → String
  | .set => "set"
  | .append => "append"
  | .insert => "insert"
  | .retract => "retract"
  | .explain => "explain"

def all : List ActionKind :=
  [.set, .append, .insert, .retract, .explain]

end ActionKind

structure ActionSpec where
  kind : ActionKind
  target : Option String := none
  field : Option String := none
  value : Operand := .literal .null
  unique : Bool := false
  factType : Option String := none
  data : List (String × Operand) := []
  text : Option String := none
deriving Repr, Inhabited

structure RuleSpec where
  name : String
  priority : Int := 0
  description : Option String := none
  conditions : List ConditionSpec := []
  actions : List ActionSpec := []
  /-- An action that runs after the declarative ones. -/
  script : Option Callable := none
  explanation : Option String := none
  refireOnChange : Bool := false
deriving Repr, Inhabited

/-- Rules, and the fact types they are about. -/
structure RuleSetSpec where
  name : String := "default"
  version : String := "1.0"
  factTypes : List FactTypeSpec := []
  rules : List RuleSpec := []
deriving Repr, Inhabited

namespace Reader

def factTypeSpec : Reader FactTypeSpec :=
  record "FactTypeSpec" fun sources =>
    FactTypeSpec.mk <$> required "name" text sources
      <*> withDefault "fields" none (optional (list text)) sources
      <*> withDefault "description" none (optional text) sources

def checkSpec : Reader CheckSpec :=
  record "CheckSpec" fun sources =>
    CheckSpec.mk <$> required "field" text sources
      <*> withDefault "operator" "==" text sources
      <*> withDefault "value" .null any sources

def patternSpec (sources : List (String × Source)) : Checked Problem PatternSpec :=
  PatternSpec.mk <$> required "var" text sources
    <*> required "fact_type" text sources
    <*> withDefault "tests" [] (list checkSpec) sources
    <*> withDefault "where" none (optional callable) sources

def joinSpec (sources : List (String × Source)) : Checked Problem JoinSpec :=
  JoinSpec.mk <$> withDefault "left" none (optional text) sources
    <*> withDefault "operator" "==" text sources
    <*> withDefault "right" none (optional text) sources
    <*> withDefault "where" none (optional callable) sources
    <*> withDefault "variables" [] (list text) sources

def negationSpec (sources : List (String × Source)) : Checked Problem NegationSpec :=
  NegationSpec.mk <$> required "fact_type" text sources
    <*> withDefault "tests" [] (list checkSpec) sources
    <*> withDefault "where" none (optional callable) sources
    <*> withDefault "match" [] (entries text) sources

def aggregateSpec (sources : List (String × Source)) : Checked Problem AggregateSpec :=
  AggregateSpec.mk <$> required "fact_type" text sources
    <*> withDefault "function" "count" text sources
    <*> withDefault "field" none (optional text) sources
    <*> withDefault "tests" [] (list checkSpec) sources
    <*> withDefault "where" none (optional callable) sources
    <*> withDefault "match" [] (entries text) sources
    <*> withDefault "operator" ">=" text sources
    <*> withDefault "threshold" .null any sources
    <*> withDefault "bind" none (optional text) sources

def conditionSpec : Reader ConditionSpec :=
  choice "kind"
    [("pattern", fun sources => (patternSpec sources).map .pattern),
      ("join", fun sources => (joinSpec sources).map .join),
      ("not", fun sources => (negationSpec sources).map .negation),
      ("aggregate", fun sources => (aggregateSpec sources).map .aggregate)]

/-- A value of an action, or a callable that computes it. -/
def operand : Reader Operand
  | .callable c => .ok (.computed c.name c.toExpr)
  | source => .ok (.literal source.toValue)

def actionSpec : Reader ActionSpec :=
  record "ActionSpec" fun sources =>
    ActionSpec.mk
      <$> required "kind" (literal (ActionKind.all.map fun k => (k.name, k))) sources
      <*> withDefault "target" none (optional text) sources
      <*> withDefault "field" none (optional text) sources
      <*> withDefault "value" (.literal .null) operand sources
      <*> withDefault "unique" false boolean sources
      <*> withDefault "fact_type" none (optional text) sources
      <*> withDefault "data" [] (entries operand) sources
      <*> withDefault "text" none (optional text) sources

def ruleSpec : Reader RuleSpec :=
  record "RuleSpec" fun sources =>
    RuleSpec.mk <$> required "name" text sources
      <*> withDefault "priority" 0 integer sources
      <*> withDefault "description" none (optional text) sources
      <*> withDefault "conditions" [] (list conditionSpec) sources
      <*> withDefault "actions" [] (list actionSpec) sources
      <*> withDefault "then" none (optional callable) sources
      <*> withDefault "explanation" none (optional text) sources
      <*> withDefault "refire_on_change" false boolean sources

def ruleSetSpec : Reader RuleSetSpec :=
  record "RuleSetSpec" fun sources =>
    RuleSetSpec.mk <$> withDefault "name" "default" text sources
      <*> withDefault "version" "1.0" text sources
      <*> withDefault "fact_types" [] (list factTypeSpec) sources
      <*> withDefault "rules" [] (list ruleSpec) sources

end Reader
end ForwardChaining
