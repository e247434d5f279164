import ForwardChaining.Value.Conversion

/-!
This module contains fact types, facts and the changes that a store makes to them. A fact is a
snapshot: an update makes a new one with the same identity and the next version.
-/

namespace ForwardChaining

structure FactType where
  name : String
  /-- The declared fields; with none given, any field is accepted. -/
  fields : Option (List String) := none
  description : Option String := none
deriving Repr, DecidableEq, Inhabited

namespace FactType

/-- Does the type accept a key of data? Only texts are declared. -/
def accepts (type : FactType) (key : Value) : Bool :=
  match type.fields, key with
  | none, _ => true
  | some declared, .text field => declared.contains field
  | some _, _ => false

/-- The fields of some names that the type does not declare, in ascending order. -/
def undeclared (type : FactType) (names : List String) : List String :=
  (names.filter fun field => !type.accepts (.text field)).mergeSort fun a b => !decide (b < a)

/--
The type must accept every key of some data. The fault names the others in ascending order, so it is
another one if they cannot be sorted or are no texts.
-/
def requireAccepted (type : FactType) (data : Entries) : Except Fault Unit := do
  let extra := (data.map (·.1)).filter (!type.accepts ·)
  if extra.isEmpty then return ()
  let extra ← (Value.ascending extra).mapError (.unordered .less)
  throw (.unknownFactType (.text type.name) (← Fault.texts 0 extra))

end FactType

structure Fact where
  /-- The identity, which is never reused within a session. -/
  id : Int
  type : String
  data : Entries := []
  /-- One more with every update. -/
  version : Int := 1
  /-- The stamp of the last insertion or update. -/
  recency : Int := 0
deriving Repr, Inhabited

namespace Fact

/-- The value of a field; null if it is missing. -/
def get (fact : Fact) (field : String) : Value :=
  (fact.data.get? (.text field)).getD .null

/-- The value under a key, which may be any value that has a hash. -/
def find? (fact : Fact) (key : Value) : Except Fault (Option Value) :=
  key.requireHash.map fun _ => fact.data.get? key

/-- The value under a key, which must be there. -/
def item (fact : Fact) (key : Value) : Except Fault Value := do
  match ← fact.find? key with
  | some x => return x
  | none => throw (.missingKey key)

def eq (a b : Fact) : Bool :=
  a.id == b.id && a.type == b.type && a.data.same b.data
    && a.version == b.version && a.recency == b.recency

/-- Can the data be written: are all integers in it short? -/
def writable (fact : Fact) : Bool :=
  fact.data.writable

def dataLiteral (fact : Fact) : String :=
  "FactData(" ++ fact.data.literal ++ ")"

def label (fact : Fact) : String :=
  fact.type ++ "#" ++ Text.ofInt fact.id

end Fact

/-- A change of a store, as it is delivered to listeners. -/
inductive Change where
  | inserted (fact : Fact)
  /-- The new snapshot, and the one it replaced. -/
  | updated (fact previous : Fact)
  /-- The snapshot that was removed. -/
  | retracted (fact : Fact)
deriving Repr, Inhabited

namespace Change

def kind : Change → String
  | .inserted _ => "inserted"
  | .updated .. => "updated"
  | .retracted _ => "retracted"

/-- The snapshot that was inserted, put in place or removed. -/
def fact : Change → Fact
  | .inserted fact => fact
  | .updated fact _ => fact
  | .retracted fact => fact

def previous? : Change → Option Fact
  | .updated _ previous => some previous
  | _ => none

end Change
end ForwardChaining
