import ForwardChaining.Fault
import ForwardChaining.Binary64.Sum

/-!
This module contains the aggregate functions over the contributions of a group of facts.
-/

namespace ForwardChaining

inductive AggregateFunction where
  | count
  | sum
  | min
  | max
deriving DecidableEq, Repr, Inhabited

namespace AggregateFunction

def name : AggregateFunction → String
  | .count => "count"
  | .sum => "sum"
  | .min => "min"
  | .max => "max"

def all : List AggregateFunction :=
  [.count, .sum, .min, .max]

def ofName? (s : String) : Option AggregateFunction :=
  all.find? (·.name == s)

end AggregateFunction

namespace Value

def toReal : Value → Except Fault Binary64
  | .float x => .ok x
  | x =>
    match x.number? with
    | some (.int n) =>
      match Binary64.ofInt? n with
      | some y => .ok y
      | none => .error .integerTooLarge
    | _ => .error (.notReal x.typeName)

def exactInt? : Value → Option Int
  | .int n => some n
  | .bool b => some (if b then 1 else 0)
  | _ => none

def exactInts? : List Value → Option (List Int)
  | [] => some []
  | x :: xs =>
    match exactInt? x, exactInts? xs with
    | some n, some ns => some (n :: ns)
    | _, _ => none

def sumFault : SumError → Fault
  | .overflow => .sumOverflow
  | .opposedInfinities => .opposedInfinities

/-- Add numbers one after the other to exact partial sums. -/
def addReals (s : Binary64.Partials) : List Value → Except Fault Binary64.Partials
  | [] => .ok s
  | x :: xs =>
    match x.toReal with
    | .error fault => .error fault
    | .ok y =>
      match s.add y with
      | .error cause => .error (sumFault cause)
      | .ok s => addReals s xs

/--
A sum that does not depend on the order of the values: integers are added exactly, anything else is
added exactly and rounded once. A NaN that comes out is the `n`th computed one.
-/
def exactSum (n : Nat) (values : List Value) : Except Fault Value :=
  match exactInts? values with
  | some ns => .ok (.int (ns.foldl (· + ·) 0))
  | none =>
    match addReals .empty values with
    | .error fault => .error fault
    | .ok s =>
      match s.total n with
      | .error cause => .error (sumFault cause)
      | .ok x => .ok (.float x)

/-- The first value that no later one precedes by the relation. -/
def extreme (r : Relation) (best : Value) : List Value → Except Fault Value
  | [] => .ok best
  | x :: xs =>
    match x.relate r best with
    | .error types => .error (.unordered r types)
    | .ok true => extreme r x xs
    | .ok false => extreme r best xs

end Value

/--
The value of an aggregate function over the contributions of a group. The least and the greatest of
nothing are null.
-/
def AggregateFunction.value (n : Nat) (f : AggregateFunction) (values : List Value) :
    Except Fault Value :=
  match f, values with
  | .count, values => .ok (.int values.length)
  | .sum, values => Value.exactSum n values
  | _, [] => .ok .null
  | .min, x :: xs => Value.extreme .less x xs
  | .max, x :: xs => Value.extreme .greater x xs

end ForwardChaining
