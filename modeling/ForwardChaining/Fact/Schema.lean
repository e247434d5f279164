import ForwardChaining.Fact.Basic
import ForwardChaining.Schema.Reader
import ForwardChaining.Value.Conversion

/-!
This module contains the schemas of fact types, facts and initial facts.
-/

namespace ForwardChaining

/-- An initial fact that a source supplies. -/
structure FactInput where
  type : String
  data : Fields := []
deriving Repr, Inhabited

namespace Reader

def factType : Reader FactType :=
  record "FactType" fun sources =>
    FactType.mk <$> required "name" text sources
      <*> withDefault "fields" none (optional (tuple text)) sources
      <*> withDefault "description" none (optional text) sources

def factData : Reader Entries
  | .record fields => .ok (Entries.ofFields (Source.toFields fields))
  | _ => problem .notMapping

def fact : Reader Fact :=
  record "Fact" fun sources =>
    Fact.mk <$> required "fact_id" integer sources
      <*> required "fact_type" text sources
      <*> withDefault "data" [] factData sources
      <*> withDefault "version" 1 integer sources
      <*> withDefault "recency" 0 integer sources

def factInput : Reader FactInput :=
  record "FactInput" fun sources =>
    FactInput.mk <$> required "fact_type" text sources
      <*> withDefault "data" [] (entries any) sources

/-- How a key is called in the place of a problem: a truth value is an integer. -/
def keyPlace : Value → String
  | .bool b => if b then "1" else "0"
  | key => key.plain

/-- An entry of the data of an initial fact; its key must be a text. -/
def factEntry : Value × Value → Checked Problem (String × Value)
  | (.text k, x) => .ok (k, x)
  | (k, _) => under (keyPlace k) (under "[key]" (problem .notText))

/-- An initial fact of a type with the entries of its data. -/
def factOfEntries (tag : Value) (entries : Entries) : Checked Problem FactInput :=
  FactInput.mk
    <$> under "fact_type" (match tag with
      | .text type => .ok type
      | _ => problem .notText)
    <*> under "data" (.all (entries.map factEntry))

end Reader
end ForwardChaining
