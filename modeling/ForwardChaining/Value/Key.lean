import ForwardChaining.Value.Basic

/-!
This module contains frozen values, by which facts are correlated and grouped: lists become tuples
and records become tuples of pairs in the order of their keys, so that every frozen value can be a
key.
-/

namespace ForwardChaining

/-- The pairs in ascending order of their keys; pairs with equal keys keep their order. -/
def sortByKey (fields : List (String × α)) : List (String × α) :=
  fields.mergeSort fun a b => !decide (b.1 < a.1)

namespace Value

mutual

def frozen : Value → Value
  | .list items => .tuple (frozenItems items)
  | .tuple items => .tuple (frozenItems items)
  | .set items => .set (distinct (frozenItems items))
  | .record fields =>
    .tuple ((sortByKey (frozenFields fields)).map fun (k, x) => .tuple [.text k, x])
  | x => x
termination_by structural x => x

def frozenItems : List Value → List Value
  | [] => []
  | x :: xs => frozen x :: frozenItems xs
termination_by structural x => x

def frozenFields : List (String × Value) → List (String × Value)
  | [] => []
  | (k, x) :: xs => (k, frozen x) :: frozenFields xs
termination_by structural x => x

end
end Value

abbrev Key := List Value

namespace Key

def same (a b : Key) : Bool :=
  Value.sameItems a b

def find? (key : Key) : List (Key × α) → Option α
  | [] => none
  | (k, a) :: entries => if same k key then some a else find? key entries

/-- Put an entry under a key: in its old place if the key occurs, at the end otherwise. -/
def insert (key : Key) (a : α) : List (Key × α) → List (Key × α)
  | [] => [(key, a)]
  | (k, b) :: entries => if same k key then (k, a) :: entries else (k, b) :: insert key a entries

def erase (key : Key) : List (Key × α) → List (Key × α)
  | [] => []
  | (k, b) :: entries => if same k key then entries else (k, b) :: erase key entries

end Key
end ForwardChaining
