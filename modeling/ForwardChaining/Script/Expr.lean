import ForwardChaining.Aggregate
import ForwardChaining.Operator
import ForwardChaining.Fact.Basic

/-!
This module contains the expressions in which predicates over facts and computed values of actions are
written, and their evaluation.
-/

namespace ForwardChaining

/-- What an action names a fact by. -/
inductive Target where
  /-- A variable, if the value is a text, and an identity otherwise. -/
  | named (ref : Value)
  /-- The fact that was bound to a variable. -/
  | bound (var : String)
deriving Repr, Inhabited

inductive Expr where
  | lit (value : Value)
  /-- A field of an argument; null if it is missing. -/
  | get (index : Int) (field : Value)
  /-- A field of an argument, which must be there. -/
  | item (index : Int) (field : Value)
  /-- Does an argument have the field? -/
  | has (index : Int) (field : Value)
  /-- A field of the fact bound to a variable, as it was when the rule fired. -/
  | fact (var field : Value)
  /-- A field of a live fact; null if it is missing. -/
  | current (target : Target) (field : Value)
  /-- The value of a named aggregate. -/
  | value (name : Value)
  | cycle
  | rule
  /-- How many facts of a type are live. -/
  | count (type : Value)
  /-- A comparison by the name of its operator. -/
  | compare (op : String) (a b : Expr)
  | all (parts : List Expr)
  | any (parts : List Expr)
  | not (a : Expr)
  | less (a b : Expr)
  | add (a b : Expr)
  | mul (a b : Expr)
  /-- Raise an error of this kind. -/
  | fail (kind message : String)
deriving Repr, Inhabited

/-- What an expression in an action can see of the firing. -/
structure Surroundings where
  bindings : List (String × Fact)
  values : Fields
  cycle : Value
  rule : String
  /-- The live fact of an identity. -/
  live : Value → Except Fault Fact
  /-- How many facts of a type are live. -/
  population : Value → Except Fault Nat

/-- What an expression can see. -/
structure Scope where
  /-- The arguments of a predicate. -/
  arguments : List Fact := []
  /-- The firing, if there is one. -/
  surroundings : Option Surroundings := none
  /-- The number of this evaluation, which marks the NaNs that come out of it. -/
  serial : Nat := 0

namespace Scope

/-- The argument at a place; negative places count from the end. -/
def argument (s : Scope) (index : Int) : Except Fault Fact :=
  let place := if index < 0 then index + s.arguments.length else index
  match (if place < 0 then none else s.arguments[place.toNat]?) with
  | some fact => .ok fact
  | none => .error (.indexOutOfRange "tuple")

/-- The firing. A predicate has none. -/
def firing (s : Scope) (name : String) : Except Fault Surroundings :=
  match s.surroundings with
  | some x => .ok x
  | none => .error (.noAttribute "NoneType" name)

end Scope

/-- What is stored under a name, which may be any value that has a hash. -/
def lookUp (entries : List (String × α)) (name : Value) : Except Fault α := do
  name.requireHash
  let found := match name with
    | .text s => entries.lookup s
    | _ => none
  match found with
  | some a => return a
  | none => throw (.missingKey name)

namespace Surroundings

def bound (s : Surroundings) (var : Value) : Except Fault Fact :=
  lookUp s.bindings var

def identity (s : Surroundings) : Target → Except Fault Value
  | .bound var => (s.bound (.text var)).map (.int ·.id)
  | .named (.text var) => (s.bound (.text var)).map (.int ·.id)
  | .named ref => .ok ref

def value (s : Surroundings) (name : Value) : Except Fault Value :=
  lookUp s.values name

end Surroundings

namespace Expr

/-- Two numbers, or the fault of an operation that needs them. -/
def numbers (operation : String) (x y : Value) : Except Fault (Number × Number) :=
  match x.number?, y.number? with
  | some p, some q => .ok (p, q)
  | _, _ => .error (.needsNumbers operation)

/-- Arithmetic: integers stay integers, with a binary64 number both become one. -/
def arithmetic (operation : String) (ints : Int → Int → Int)
    (reals : Binary64 → Binary64 → Binary64) (x y : Value) : Except Fault Value := do
  match ← numbers operation x y with
  | (.int a, .int b) => return .int (ints a b)
  | _ => return .float (reals (← x.toReal) (← y.toReal))

mutual

def eval (s : Scope) : Expr → Except Fault Value
  | .lit x => .ok x
  | .get index field => do return (← (← s.argument index).find? field).getD .null
  | .item index field => do (← s.argument index).item field
  | .has index field => do return .bool (← (← s.argument index).find? field).isSome
  | .fact var field => do ((← (← s.firing "fact").bound var).item field)
  | .current target field => do
    let firing ← s.firing "current"
    let fact ← firing.live (← firing.identity target)
    return (← fact.find? field).getD .null
  | .value name => do (← s.firing "value").value name
  | .cycle => do return (← s.firing "cycle").cycle
  | .rule => do return .text (← s.firing "rule_name").rule
  | .count type => do return .int (← (← s.firing "scan").population type)
  | .compare op a b => do
    let x ← eval s a
    let y ← eval s b
    return .bool (← compareBy op x y)
  | .all parts => (evalAll s parts).map .bool
  | .any parts => (evalAny s parts).map .bool
  | .not a => (eval s a).map fun x => .bool (!x.truthy)
  | .less a b => do
    let x ← eval s a
    let y ← eval s b
    let (p, q) ← numbers "lt" x y
    return .bool (p.compare? q == some .lt)
  | .add a b => do
    let x ← eval s a
    let y ← eval s b
    arithmetic "add" (· + ·) (Binary64.add s.serial) x y
  | .mul a b => do
    let x ← eval s a
    let y ← eval s b
    arithmetic "mul" (· * ·) (Binary64.mul s.serial) x y
  | .fail kind message => .error (.ofKind kind message)
termination_by structural e => e

/-- Does every part count as true? The first that does not ends the evaluation. -/
def evalAll (s : Scope) : List Expr → Except Fault Bool
  | [] => .ok true
  | e :: es => do
    let x ← eval s e
    if x.truthy then evalAll s es else return false
termination_by structural es => es

/-- Does some part count as true? The first that does ends the evaluation. -/
def evalAny (s : Scope) : List Expr → Except Fault Bool
  | [] => .ok false
  | e :: es => do
    let x ← eval s e
    if x.truthy then return true else evalAny s es
termination_by structural es => es

end
end Expr

/-- A predicate over facts. Predicates with one identity are one and the same predicate. -/
structure Predicate where
  ident : Nat
  name : String
  formula : Expr
deriving Repr, Inhabited

/-- Call a predicate. Its result counts by its truth. -/
def Predicate.call (p : Predicate) (facts : List Fact) : Except Fault Bool :=
  (p.formula.eval { arguments := facts }).map (·.truthy)

end ForwardChaining
