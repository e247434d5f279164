import ForwardChaining.Log
import ForwardChaining.Script.Expr
import ForwardChaining.Value.Key

/-!
This module contains the conditions of compiled rules and their tests on facts and on bindings. A
predicate that fails counts as false; the failure is reported beside the answer, so that the answer
itself stays a plain truth value.
-/

namespace ForwardChaining

abbrev Bindings := List (String × Fact)

/-- A field of a bound variable. -/
structure FieldRef where
  var : String
  field : String
deriving Repr, DecidableEq, Inhabited

namespace FieldRef

/-- The value of the field; the variable must be bound. -/
def resolve (ref : FieldRef) (bindings : Bindings) : Except Fault Value :=
  match bindings.lookup ref.var with
  | some fact => .ok (fact.get ref.field)
  | none => .error (.missingKey (.text ref.var))

/-- The variable and the field with a point between them. -/
def text (ref : FieldRef) : String :=
  ref.var ++ "." ++ ref.field

end FieldRef

/-- A comparison of a field of one fact with a value. -/
structure FieldTest where
  field : String
  op : Operator
  value : Value
deriving Repr, Inhabited

namespace FieldTest

def passes (test : FieldTest) (fact : Fact) : Except Fault Bool :=
  test.op.apply (fact.get test.field) test.value

def literal (test : FieldTest) : String :=
  "FieldTest(" ++ Text.joinWith ", " ["field=" ++ Text.quoted test.field,
    "op=" ++ Text.quoted test.op.name, "value=" ++ test.value.literal] ++ ")"

end FieldTest

/-- The fact must have the value of a bound field in a field of its own. -/
structure KeyBinding where
  field : String
  ref : FieldRef
deriving Repr, DecidableEq, Inhabited

/-- The report of a predicate that fails on some facts. -/
def Predicate.complaints (p : Predicate) (facts : List Fact) : List LogEntry :=
  match p.call facts with
  | .error fault => [.predicateFailed p.name (facts.map (·.id)) fault]
  | .ok _ => []

structure FactFilter where
  type : String
  tests : List FieldTest := []
  predicate : Option Predicate := none
deriving Repr, Inhabited

namespace FactFilter

/-- Does the fact pass all tests? The first that it does not pass ends them. -/
def passesAll (fact : Fact) : List FieldTest → Except Fault Bool
  | [] => .ok true
  | test :: tests =>
    match test.passes fact with
    | .ok true => passesAll fact tests
    | answer => answer

/-- Has the fact the type, and does it pass the tests? -/
def reaches (filter : FactFilter) (fact : Fact) : Except Fault Bool :=
  if fact.type = filter.type then passesAll fact filter.tests else .ok false

def accepts (filter : FactFilter) (fact : Fact) : Except Fault Bool :=
  match filter.reaches fact, filter.predicate with
  | .ok true, some p => .ok ((p.call [fact]).toOption.getD false)
  | answer, _ => answer

def complaints (filter : FactFilter) (fact : Fact) : List LogEntry :=
  match filter.reaches fact, filter.predicate with
  | .ok true, some p => p.complaints [fact]
  | _, _ => []

/-- What makes two filters the same: type, text of the tests and identity of the predicate. -/
structure Identity where
  type : String
  tests : String
  predicate : Option Nat
deriving DecidableEq, Repr

def identity (filter : FactFilter) : Identity :=
  ⟨filter.type, Value.tupleText (filter.tests.map (·.literal)), filter.predicate.map (·.ident)⟩

end FactFilter

def factKey (keys : List KeyBinding) (fact : Fact) : Key :=
  keys.map fun k => (fact.get k.field).frozen

/-- The key that bindings ask for under some correlations. -/
def bindingKey (keys : List KeyBinding) (bindings : Bindings) : Except Fault Key :=
  keys.mapM fun k => (k.ref.resolve bindings).map (·.frozen)

/-- A test across bound variables. -/
structure JoinCondition where
  left : Option FieldRef := none
  op : Operator := .eq
  right : Option FieldRef := none
  predicate : Option Predicate := none
  /-- The variables whose facts the predicate takes. -/
  vars : List String := []
deriving Repr, Inhabited

namespace JoinCondition

def compares (join : JoinCondition) (bindings : Bindings) : Except Fault Bool :=
  match join.left, join.right with
  | some left, some right => do
    let x ← left.resolve bindings
    let y ← right.resolve bindings
    join.op.apply x y
  | _, _ => .ok true

def arguments (join : JoinCondition) (bindings : Bindings) : Except Fault (List Fact) :=
  join.vars.mapM fun var =>
    match bindings.lookup var with
    | some fact => .ok fact
    | none => .error (.missingKey (.text var))

def holds (join : JoinCondition) (bindings : Bindings) : Except Fault Bool :=
  match join.compares bindings, join.predicate with
  | .ok true, some p =>
    (join.arguments bindings).map fun facts => (p.call facts).toOption.getD false
  | answer, _ => answer

def complaints (join : JoinCondition) (bindings : Bindings) : List LogEntry :=
  match join.compares bindings, join.predicate, join.arguments bindings with
  | .ok true, some p, .ok facts => p.complaints facts
  | _, _, _ => []

end JoinCondition

/-- A test on an aggregate of the facts that pass a filter. -/
structure AggregateTest where
  function : AggregateFunction := .count
  /-- The field whose values are aggregated. -/
  field : Option String := none
  op : Operator := .gte
  threshold : Value := .null
  /-- The name under which actions see the value. -/
  bind : Option String := none
deriving Repr, Inhabited

namespace AggregateTest

/-- What a fact contributes: one to a count, otherwise its number, if the field holds one. -/
def contribution (test : AggregateTest) (fact : Fact) : Option Value :=
  match test.function with
  | .count => some (.int 1)
  | _ =>
    match test.field with
    | none => none
    | some field =>
      if field == "" then none
      else
        match fact.get field with
        | .int n => some (.int n)
        | .float x => some (.float x)
        | _ => none

def satisfiedBy (test : AggregateTest) (value : Value) : Except Fault Bool :=
  test.op.apply value test.threshold

end AggregateTest

inductive Condition where
  /-- Some fact passes the filter; it is bound to the variable. -/
  | pattern (filter : FactFilter) (var : String)
  | join (join : JoinCondition)
  /-- No fact with the key passes the filter. -/
  | negation (filter : FactFilter) (keys : List KeyBinding)
  /-- The aggregate of the facts with the key that pass the filter passes its test. -/
  | aggregate (filter : FactFilter) (keys : List KeyBinding) (test : AggregateTest)
deriving Repr, Inhabited

namespace Condition

/-- The filter on single facts, which all conditions but joins have. -/
def filter? : Condition → Option FactFilter
  | .pattern filter _ => some filter
  | .join _ => none
  | .negation filter _ => some filter
  | .aggregate filter _ _ => some filter

def var? : Condition → Option String
  | .pattern _ var => some var
  | _ => none

def kind : Condition → String
  | .pattern .. => "pattern"
  | .join _ => "join"
  | .negation .. => "not"
  | .aggregate .. => "aggregate"

end Condition
end ForwardChaining
