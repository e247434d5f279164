import ForwardChaining.Fact.Basic
import ForwardChaining.Value.Conversion

/-!
This module contains the table of live facts. Identities and stamps are handed out in ascending order,
so the facts stand in the order of their identities. The identities are also filed under the types of
their facts. An operation that fails leaves the table as it was, except that the insertion of a fact
whose type is no text has used up an identity and a stamp.
-/

namespace ForwardChaining

/-- Identities under the types of their facts, in the order in which they were filed. -/
abbrev FactIndex := List (String × List Int)

namespace FactIndex

def identities (index : FactIndex) (type : String) : List Int :=
  (index.lookup type).getD []

def add (type : String) (id : Int) : FactIndex → FactIndex
  | [] => [(type, [id])]
  | (t, ids) :: index =>
    if t = type then (t, ids ++ [id]) :: index else (t, ids) :: add type id index

/-- Take an identity out from under its type. The type stays, perhaps with nothing under it. -/
def remove (type : String) (id : Int) (index : FactIndex) : FactIndex :=
  index.map fun (t, ids) => (t, if t = type then ids.filter (· ≠ id) else ids)

end FactIndex

/-- The live facts, and what is needed to hand out identities and stamps. -/
structure FactTable where
  /-- The declared types; with none given, any type is accepted. -/
  declared : Option (List FactType) := none
  /-- The live facts in ascending order of their identities. -/
  live : List Fact := []
  /-- The identities of the live facts. -/
  index : FactIndex := []
  nextId : Int := 1
  clock : Int := 0
  /-- The identities retracted since the cycle began. -/
  retracted : List Int := []
deriving Repr, Inhabited

namespace FactTable

def find? (table : FactTable) (id : Int) : Option Fact :=
  table.live.find? (·.id = id)

/-- The live fact that a reference names, if it names one. -/
def lookup (table : FactTable) (ref : Value) : Except Fault (Option Fact) := do
  ref.requireHash
  return ref.integer?.bind table.find?

/-- The live fact that a reference names. A reference to a fact of this cycle is stale. -/
def get (table : FactTable) (ref : Value) : Except Fault Fact := do
  match ← table.lookup ref with
  | some fact => return fact
  | none =>
    if ref.integer?.any table.retracted.contains then throw (.staleReference ref)
    else throw (.noSuchFact ref)

def filed (table : FactTable) (id : Int) : Except Fault Fact :=
  match table.find? id with
  | some fact => .ok fact
  | none => .error (.missingKey (.int id))

/-- The live facts of a type, in the order in which they were inserted. -/
def scan (table : FactTable) (tag : Value) : Except Fault (List Fact) := do
  tag.requireHash
  match tag with
  | .text type => (table.index.identities type).mapM table.filed
  | _ => return []

def declaration? (declared : List FactType) (tag : Value) : Option FactType :=
  match tag with
  | .text type => declared.reverse.find? (·.name = type)
  | _ => none

/-- The type and the fields must be declared. -/
def requireDeclared (table : FactTable) (tag : Value) (data : Entries) : Except Fault Unit :=
  match table.declared with
  | none => .ok ()
  | some declared => do
    tag.requireHash
    match declaration? declared tag with
    | none => throw (.unknownFactType tag [])
    | some type => type.requireAccepted data

/-- The table with the next identity and the next stamp used up. -/
def advance (table : FactTable) : FactTable :=
  { table with nextId := table.nextId + 1, clock := table.clock + 1 }

def insert (table : FactTable) (tag : Value) (data : Entries) : FactTable × Except Fault Fact :=
  match table.requireDeclared tag data with
  | .error fault => (table, .error fault)
  | .ok _ =>
    match tag with
    | .text type =>
      let fact : Fact :=
        { id := table.nextId, type, data, version := 1, recency := table.clock + 1 }
      ({ table.advance with
          live := table.live ++ [fact]
          index := table.index.add type fact.id }, .ok fact)
    | _ =>
      -- Without declared types it is the fact that refuses such a type, when it has its identity.
      (if table.declared.isNone then table.advance else table,
        .error (.invalid [⟨["fact_type"], .notText⟩]))

def replace (fact : Fact) (live : List Fact) : List Fact :=
  live.map fun old => if old.id = fact.id then fact else old

/-- Replace the data of a fact. The result holds the new snapshot and the old one. -/
def update (table : FactTable) (ref : Value) (data : Entries) :
    FactTable × Except Fault (Fact × Fact) :=
  match table.get ref with
  | .error fault => (table, .error fault)
  | .ok previous =>
    match table.requireDeclared (.text previous.type) data with
    | .error fault => (table, .error fault)
    | .ok _ =>
      let fact := { previous with data, version := previous.version + 1, recency := table.clock + 1 }
      ({ table with live := replace fact table.live, clock := table.clock + 1 },
        .ok (fact, previous))

def retract (table : FactTable) (ref : Value) : FactTable × Except Fault Fact :=
  match table.get ref with
  | .error fault => (table, .error fault)
  | .ok fact =>
    ({ table with
        live := table.live.filter (·.id ≠ fact.id)
        index := table.index.remove fact.type fact.id
        retracted := fact.id :: table.retracted }, .ok fact)

/-- Begin a new cycle: nothing has been retracted in it. -/
def beginCycle (table : FactTable) : FactTable :=
  { table with retracted := [] }

end FactTable
end ForwardChaining
