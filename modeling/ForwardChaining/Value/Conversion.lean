import ForwardChaining.Fault

/-!
This module contains the conversion of a value into entries: those of a record as they are, or those of
a sequence of pairs of a key and a value.
-/

namespace ForwardChaining

namespace Value

/-- The items over which a value iterates: those of a container, the characters of a text, the keys of
a record. -/
def elements? : Value → Option (List Value)
  | .list items | .tuple items | .set items => some items
  | .text s => some (s.toList.map fun c => .text c.toString)
  | .record fields => some (fields.map fun (k, _) => .text k)
  | _ => none

def requireHash (x : Value) : Except Fault Unit :=
  match x.unhashable? with
  | some part => .error (.unhashable part.typeName)
  | none => .ok ()

/-- The pair that an element of a sequence must be. -/
def pair (index : Nat) (element : Value) : Except Fault (Value × Value) :=
  match element.elements? with
  | none => .error (.notPair index)
  | some [key, x] => (requireHash key).map fun _ => (key, x)
  | some items => .error (.pairLength index items.length)

/-- The entries of the pairs from a position on; a later pair replaces an earlier one of its key. -/
def pairs (index : Nat) (entries : Entries) : List Value → Except Fault Entries
  | [] => .ok entries
  | element :: elements =>
    match pair index element with
    | .error fault => .error fault
    | .ok (key, x) => pairs (index + 1) (entries.set key x) elements

def toEntries : Value → Except Fault Entries
  | .record fields => .ok (Entries.ofFields fields)
  | x =>
    match x.elements? with
    | some elements => pairs 0 [] elements
    | none => .error (.notIterable x.typeName)

/-- The entries that a value stands for; whatever counts as false stands for none. -/
def toEntriesOrEmpty (x : Value) : Except Fault Entries :=
  if x.truthy then x.toEntries else .ok []

end Value

/-- Fields are passed by name, so they cannot have the names that the call itself uses. -/
def Fields.requireFree (fields : Fields) (callee : String) (reserved : List String) :
    Except Fault Unit :=
  match fields.find? fun (k, _) => reserved.contains k with
  | some (k, _) => .error (.repeatedArgument callee k)
  | none => .ok ()

end ForwardChaining
