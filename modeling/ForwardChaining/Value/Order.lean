import ForwardChaining.Value.Basic

/-!
This module contains the order of values. Numbers are ordered by value, texts by code point, lists and
tuples by the first items that differ, and sets by inclusion; other values are not ordered, so sorting
may fail.
-/

namespace ForwardChaining

/-- The four order relations. -/
inductive Relation where
  | less
  | lessEq
  | greater
  | greaterEq
deriving DecidableEq, Repr

namespace Relation

def symbol : Relation → String
  | .less => "<"
  | .lessEq => "<="
  | .greater => ">"
  | .greaterEq => ">="

/-- Does the relation hold between two values in this order? -/
def accepts : Relation → Ordering → Bool
  | .less, o => o == .lt
  | .lessEq, o => o != .gt
  | .greater, o => o == .gt
  | .greaterEq, o => o != .lt

end Relation

/-- Two values that are not ordered, by the names of their types. -/
structure Unordered where
  left : String
  right : String
deriving DecidableEq, Repr

namespace Value

def relateSets (r : Relation) (xs ys : List Value) : Bool :=
  match r with
  | .less => xs.length < ys.length && subset xs ys
  | .lessEq => xs.length ≤ ys.length && subset xs ys
  | .greater => ys.length < xs.length && subset ys xs
  | .greaterEq => ys.length ≤ xs.length && subset ys xs

/-- The relation between values that are not containers. -/
def relateAtoms (r : Relation) (x y : Value) : Except Unordered Bool :=
  match x, y with
  | .text s, .text t => .ok (r.accepts (compare s t))
  | x, y =>
    match x.number?, y.number? with
    | some p, some q => .ok ((p.compare? q).any r.accepts)
    | _, _ => .error ⟨x.typeName, y.typeName⟩

mutual

/-- Does the relation hold between two values, if they are ordered at all? -/
def relate (r : Relation) : Value → Value → Except Unordered Bool
  | .list xs, .list ys => relateItems r xs ys
  | .tuple xs, .tuple ys => relateItems r xs ys
  | .set xs, .set ys => .ok (relateSets r xs ys)
  | x, y => relateAtoms r x y
termination_by structural x => x

/-- The first items that differ decide; if none do, the lengths decide. -/
def relateItems (r : Relation) : List Value → List Value → Except Unordered Bool
  | [], [] => .ok (r.accepts .eq)
  | [], _ :: _ => .ok (r.accepts .lt)
  | _ :: _, [] => .ok (r.accepts .gt)
  | x :: xs, y :: ys => if same x y then relateItems r xs ys else relate r x y
termination_by structural x => x

end

/-- Is one number below another? A NaN is below nothing. -/
def numberBelow (x y : Value) : Bool :=
  match x.number?, y.number? with
  | some p, some q => p.compare? q == some .lt
  | _, _ => false

/-- Put a value before the first number that is greater; what is no number goes to the end. -/
def insertAscending (x : Value) : List Value → List Value
  | [] => [x]
  | y :: ys => if numberBelow x y then x :: y :: ys else y :: insertAscending x ys

/-- The set of some values: without repetition, numbers in ascending order. -/
def setOf (items : List Value) : Value :=
  .set ((distinct items).foldl (fun sorted x => insertAscending x sorted) [])

/-! ### Sorting -/

/-- The run at the start in which every value is below the one before it, or in which none is. -/
def leadingRun (descending : Bool) (previous : Value) :
    List Value → Except Unordered (List Value × List Value)
  | [] => .ok ([], [])
  | x :: xs => do
    if (← relate .less x previous) == descending then
      let (run, rest) ← leadingRun descending x xs
      return (x :: run, rest)
    else return ([], x :: xs)

/-- The place of a value between two places of a sorted list: behind whatever is not greater. -/
def placeIn (sorted : List Value) (x : Value) (first last : Nat) : Except Unordered Nat :=
  if first < last then do
    let middle := first + (last - first) / 2
    if ← relate .less x (sorted.getD middle .null) then placeIn sorted x first middle
    else placeIn sorted x (middle + 1) last
  else .ok first
termination_by last - first

def insertSorted (sorted : List Value) (x : Value) : Except Unordered (List Value) := do
  let place ← placeIn sorted x 0 sorted.length
  return sorted.insertIdx place x

/--
The values in ascending order. The run at the start is taken as it is, or turned around; every other
value is put into its place by halving. The first comparison that fails is the one reported.
-/
def ascending : List Value → Except Unordered (List Value)
  | x :: y :: items => do
    let descending ← relate .less y x
    let (run, rest) ← leadingRun descending y items
    let run := x :: y :: run
    rest.foldlM insertSorted (if descending then run.reverse else run)
  | items => .ok items

end Value
end ForwardChaining
