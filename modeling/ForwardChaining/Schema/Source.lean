import ForwardChaining.Script.Step

/-!
This module contains the data that schemas are read from: values with callables among them.
-/

namespace ForwardChaining

/-- A value in which callables may stand. -/
inductive Source where
  | null
  | bool (b : Bool)
  | int (n : Int)
  | float (x : Binary64)
  | text (s : String)
  | list (items : List Source)
  | tuple (items : List Source)
  | set (items : List Source)
  | record (fields : List (String × Source))
  | callable (c : Callable)
deriving Repr, Inhabited

namespace Source

mutual

/-- A source as a value; of a callable only the reference is kept. -/
def toValue : Source → Value
  | .null => .null
  | .bool b => .bool b
  | .int n => .int n
  | .float x => .float x
  | .text s => .text s
  | .list items => .list (toItems items)
  | .tuple items => .tuple (toItems items)
  | .set items => Value.setOf (toItems items)
  | .record fields => .record (toFields fields)
  | .callable c => .callable c.ident c.name
termination_by structural x => x

def toItems : List Source → List Value
  | [] => []
  | x :: xs => toValue x :: toItems xs
termination_by structural x => x

def toFields : List (String × Source) → List (String × Value)
  | [] => []
  | (k, x) :: xs => (k, toValue x) :: toFields xs
termination_by structural x => x

end

def typeName (source : Source) : String :=
  source.toValue.typeName

end Source
end ForwardChaining
