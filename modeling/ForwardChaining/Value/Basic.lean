import ForwardChaining.Binary64.Basic

/-!
This module contains the values that facts are made of, and their equality. Numbers are equal by
value whatever their type, containers are equal only to containers of the same type, and a NaN
equals nothing, although a container recognises the very NaN it holds. A callable is equal to itself only.
-/

namespace ForwardChaining

/-- A dynamically typed value. -/
inductive Value where
  | null
  | bool (b : Bool)
  | int (n : Int)
  | float (x : Binary64)
  | text (s : String)
  | list (items : List Value)
  | tuple (items : List Value)
  /-- A set. Its items are pairwise different and are kept in the order they were written. -/
  | set (items : List Value)
  /-- A record. Its keys are pairwise different and are kept in the order they were written. -/
  | record (fields : List (String × Value))
  /-- Something that can be called, known by its identity and its name. -/
  | callable (ident : Nat) (name : String)
deriving Repr, Inhabited

/-- Named values, in the order they were written. -/
abbrev Fields := List (String × Value)

/-- A number: an integer of any size or a binary64 number. -/
inductive Number where
  | int (n : Int)
  | float (x : Binary64)
deriving DecidableEq, Repr

namespace Number

/-- The value of a number; a NaN has none. -/
def value? : Number → Option Extended
  | .int n => some (.rational n)
  | .float x => x.value?

/-- Compare by exact value, also an integer with a binary64 number. A NaN compares with nothing. -/
def compare? : Number → Number → Option Ordering
  | .int a, .int b => some (compare a b)
  | x, y =>
    match x.value?, y.value? with
    | some p, some q => some (p.compare q)
    | _, _ => none

def eq (x y : Number) : Bool :=
  x.compare? y == some .eq

end Number

namespace Value

/-- The name of the type of a value, as error messages spell it. -/
def typeName : Value → String
  | .null => "NoneType"
  | .bool _ => "bool"
  | .int _ => "int"
  | .float _ => "float"
  | .text _ => "str"
  | .list _ => "list"
  | .tuple _ => "tuple"
  | .set _ => "set"
  | .record _ => "dict"
  | .callable .. => "function"

/-- The number that a value is. The truth values are the integers one and zero. -/
def number? : Value → Option Number
  | .bool b => some (.int (if b then 1 else 0))
  | .int n => some (.int n)
  | .float x => some (.float x)
  | _ => none

/-- The integer that a value is, also as a truth value or a binary64 number. -/
def integer? : Value → Option Int
  | .bool b => some (if b then 1 else 0)
  | .int n => some n
  | .float x => x.toInt?
  | _ => none

/-- Does the value count as true? Null, zero and everything empty count as false. -/
def truthy : Value → Bool
  | .null => false
  | .bool b => b
  | .int n => n != 0
  | .float x => !x.isZero
  | .text s => s != ""
  | .list items | .tuple items | .set items => !items.isEmpty
  | .record fields => !fields.isEmpty
  | .callable .. => true

/-- Numbers are the same by value, a NaN is the same as itself. -/
def sameNumber : Number → Number → Bool
  | .float (.nan a), .float (.nan b) => a == b
  | x, y => x.eq y

mutual

/--
Are these the same as elements of a container: equal, or the very same NaN?
-/
def same : Value → Value → Bool
  | .null, .null => true
  | .text s, .text t => s == t
  | .list xs, .list ys => sameItems xs ys
  | .tuple xs, .tuple ys => sameItems xs ys
  | .set xs, .set ys => xs.length == ys.length && subset xs ys
  | .record xs, .record ys => xs.length == ys.length && sameFields xs ys
  | .callable i _, .callable j _ => i == j
  | .bool a, y => (y.number?).any (sameNumber (.int (if a then 1 else 0)))
  | .int a, y => (y.number?).any (sameNumber (.int a))
  | .float a, y => (y.number?).any (sameNumber (.float a))
  | _, _ => false
termination_by structural x => x

def sameItems : List Value → List Value → Bool
  | [], [] => true
  | x :: xs, y :: ys => same x y && sameItems xs ys
  | _, _ => false
termination_by structural x => x

/-- Does every item of the first list occur in the second? -/
def subset : List Value → List Value → Bool
  | [], _ => true
  | x :: xs, ys => ys.any (same x ·) && subset xs ys
termination_by structural x => x

/-- Does the second record hold the same value under every key of the first? -/
def sameFields : List (String × Value) → List (String × Value) → Bool
  | [], _ => true
  | (k, x) :: xs, ys =>
    (match ys.lookup k with
      | some y => same x y
      | none => false) && sameFields xs ys
termination_by structural x => x

end

/-- Equality of values. It differs from `same` only on NaNs, which equal nothing. -/
def eq : Value → Value → Bool
  | .float (.nan _), _ => false
  | x, y => same x y

def isIn (x : Value) (items : List Value) : Bool :=
  items.any (same x ·)

/-- The first part of a value that has no hash: a list, a record or a set, also inside a tuple. -/
def unhashable? : Value → Option Value
  | .tuple items => go items
  | .list items => some (.list items)
  | .set items => some (.set items)
  | .record fields => some (.record fields)
  | _ => none
where
  /-- The first such part of the items of a tuple. -/
  go : List Value → Option Value
    | [] => none
    | x :: xs => (unhashable? x).or (go xs)

def distinct (items : List Value) : List Value :=
  items.foldl (fun seen x => if isIn x seen then seen else seen ++ [x]) []

end Value

namespace Fields

def get? (fields : Fields) (key : String) : Option Value :=
  fields.lookup key

/-- Put a value under a key: in its old place if the key occurs, at the end otherwise. -/
def set (fields : Fields) (key : String) (value : Value) : Fields :=
  if fields.any (·.1 == key) then
    fields.map fun (k, v) => if k == key then (k, value) else (k, v)
  else
    fields ++ [(key, value)]

/-- Put every value of `changes` under its key. -/
def merge (fields changes : Fields) : Fields :=
  changes.foldl (fun fs (k, v) => set fs k v) fields

end Fields

/-- Values under keys, which may be any values that have a hash, in the order they were written. -/
abbrev Entries := List (Value × Value)

namespace Entries

def ofFields (fields : Fields) : Entries :=
  fields.map fun (k, x) => (.text k, x)

def get? : Entries → Value → Option Value
  | [], _ => none
  | (k, x) :: entries, key => if k.same key then some x else get? entries key

/-- Put a value under a key: in its old place if the key occurs, at the end otherwise. -/
def set : Entries → Value → Value → Entries
  | [], key, x => [(key, x)]
  | (k, y) :: entries, key, x =>
    if k.same key then (k, x) :: entries else (k, y) :: set entries key x

/-- Put every value of `changes` under its key. -/
def merge (entries changes : Entries) : Entries :=
  changes.foldl (fun es (k, x) => set es k x) entries

/-- Do both hold the same values under the same keys? -/
def same (a b : Entries) : Bool :=
  a.length == b.length && a.all fun (k, x) => (b.get? k).any x.same

/-- Entries as fields, with the keys spelled; what is spelled alike is one field. -/
def toFields (spell : Value → String) (entries : Entries) : Fields :=
  entries.foldl (fun fields (k, x) => fields.set (spell k) x) []

theorem get?_set_self (entries : Entries) (key x : Value) (h : key.same key = true) :
    (entries.set key x).get? key = some x := by
  induction entries with
  | nil => simp [set, get?, h]
  | cons entry entries ih =>
    obtain ⟨k, y⟩ := entry
    by_cases hk : k.same key = true <;> simp [set, get?, hk, ih]

end Entries
end ForwardChaining
