import ForwardChaining.Fault
import ForwardChaining.Text.Blank
import ForwardChaining.Text.Case

/-!
This module contains the comparison operators that field tests, joins and aggregates share. Ordering
operators are false on null and on values that are not ordered, so a missing field never aborts
matching.
-/

namespace ForwardChaining

inductive Operator where
  | eq
  | ne
  | isIn
  | notIn
  | contains
  | gt
  | lt
  | gte
  | lte
  | present
deriving DecidableEq, Repr, Inhabited

namespace Operator

def name : Operator → String
  | .eq => "eq"
  | .ne => "ne"
  | .isIn => "in"
  | .notIn => "not_in"
  | .contains => "contains"
  | .gt => "gt"
  | .lt => "lt"
  | .gte => "gte"
  | .lte => "lte"
  | .present => "exists"

def all : List Operator :=
  [.eq, .ne, .isIn, .notIn, .contains, .gt, .lt, .gte, .lte, .present]

def ofName? (s : String) : Option Operator :=
  all.find? (·.name == s)

/-- The spellings that rules may use besides the canonical names. -/
def spellings : List (String × Operator) :=
  [("==", .eq), ("=", .eq), ("!=", .ne), ("<>", .ne), ("in", .isIn), ("not in", .notIn),
    ("not_in", .notIn), ("contains", .contains), (">", .gt), ("<", .lt), (">=", .gte),
    ("<=", .lte), ("exists", .present)]

/-- The operator that a rule means: its canonical name as it is, or a spelling in any case. -/
def ofSpelling? (s : String) : Option Operator :=
  (ofName? s).or (spellings.lookup (Text.lower (Text.stripBy Text.isSpace s)))

/--
Membership in a set goes by hash: what has none is an error, except that a set is looked up as a
frozen one.
-/
def inSet (x : Value) (items : List Value) : Except Fault Bool :=
  match x with
  | .set _ => .ok (x.isIn items)
  | x =>
    match x.unhashable? with
    | some part => .error (.unhashable part.typeName)
    | none => .ok (x.isIn items)

/-- Membership in a list, a tuple or a set; nothing is in any other value. -/
def membership (x : Value) : Value → Except Fault (Option Bool)
  | .list items => .ok (some (x.isIn items))
  | .tuple items => .ok (some (x.isIn items))
  | .set items => (inSet x items).map some
  | _ => .ok none

/-- Does a collection, a text or a record contain the value? What cannot be looked up is not in it. -/
def holds (actual expected : Value) : Bool :=
  match actual, expected with
  | .text s, .text part => Text.occursIn part.toList s.toList
  | .record fields, .text key => (fields.lookup key).isSome
  | .list items, x => x.isIn items
  | .tuple items, x => x.isIn items
  | .set items, x => (inSet x items).toOption.getD false
  | _, _ => false

/-- An order relation that is false on null and on values that are not ordered. -/
def ordered (r : Relation) (actual expected : Value) : Bool :=
  match actual with
  | .null => false
  | actual => (actual.relate r expected).toOption.getD false

/-- Apply an operator. Only membership in a set can fail. -/
def apply (op : Operator) (actual expected : Value) : Except Fault Bool :=
  match op with
  | .eq => .ok (actual.eq expected)
  | .ne => .ok (!actual.eq expected)
  | .isIn => (membership actual expected).map (·.getD false)
  | .notIn => (membership actual expected).map (!·.getD false)
  | .contains => .ok (holds actual expected)
  | .gt => .ok (ordered .greater actual expected)
  | .lt => .ok (ordered .less actual expected)
  | .gte => .ok (ordered .greaterEq actual expected)
  | .lte => .ok (ordered .lessEq actual expected)
  | .present => .ok (match actual with | .null => false | _ => true)

end Operator

def compareBy (name : String) (actual expected : Value) : Except Fault Bool :=
  match Operator.ofName? name with
  | some op => op.apply actual expected
  | none => .error (.missingKey (.text name))

end ForwardChaining
