import ForwardChaining.Script.Expr

/-!
This module contains the steps that actions consist of: the operations on the fact store and on the
explanation of a firing, in the order in which a script lists them.
-/

namespace ForwardChaining

inductive Step where
  | insert (type data : Value)
  /-- Insert with named fields, which win over the data. -/
  | insertWith (type data : Value) (fields : Fields)
  | update (target : Target) (data : Value)
  | modify (target : Target) (changes : Fields)
  | retract (target : Target)
  /-- The live fact of a target. -/
  | current (target : Target)
  /-- The live fact of an identity. -/
  | get (ref : Value)
  | scan (type : Value)
  | explain (text : Value)
  | format (template : Value)
  /-- The fact bound to a variable. -/
  | fact (var : Value)
  /-- The value of a named aggregate. -/
  | value (name : Value)
  /-- All bound facts. -/
  | facts
  /-- The explanation so far. -/
  | explanation
  | eval (e : Expr)
  | fail (kind message : String)
  /-- Write to a bound snapshot, which is never allowed. -/
  | write (var field value : Value)
  /-- Run a step and explain its result. -/
  | note (step : Step)
  /-- Run a step; if it fails, explain the kind of the fault and go on. -/
  | attempt (step : Step)
deriving Repr, Inhabited

/-- Something that can be called. Callables with one identity are one and the same. -/
inductive Callable.Body where
  | predicate (formula : Expr)
  | function (formula : Expr)
  | script (steps : List Step)
deriving Repr, Inhabited

structure Callable where
  ident : Nat
  name : String
  body : Callable.Body
deriving Repr, Inhabited

namespace Callable

/-- A callable in the place of a predicate. A script says nothing about facts. -/
def toPredicate (c : Callable) : Predicate :=
  ⟨c.ident, c.name, match c.body with
    | .predicate e => e
    | .function e => e
    | .script _ => .lit .null⟩

def toExpr (c : Callable) : Expr :=
  match c.body with
  | .predicate e => e
  | .function e => e
  | .script _ => .lit .null

def toSteps (c : Callable) : List Step :=
  match c.body with
  | .predicate e => [.eval e]
  | .function e => [.eval e]
  | .script steps => steps

end Callable
end ForwardChaining
