import ForwardChaining.Checked
import ForwardChaining.Schema.Source
import ForwardChaining.Text.Number
import ForwardChaining.Binary64.Text

/-!
This module contains readers: functions that turn a source into data of a fixed shape, or list every
problem that prevents it. They are lenient where no meaning is lost: an integer may be written as a
text, a truth value as a word.
-/

namespace ForwardChaining

-- powers are those of the core library, also in the presence of others
attribute [local instance (high)] instPowNat

abbrev Reader (α : Type) := Source → Checked Problem α

namespace Reader

def problem (cause : Problem.Cause) : Checked Problem α :=
  .fail ⟨[], cause⟩

def under (step : String) (result : Checked Problem α) : Checked Problem α :=
  result.mapProblems (·.under step)

def any : Reader Value :=
  fun source => .ok source.toValue

def text : Reader String
  | .text s => .ok s
  | _ => problem .notText

/-- The values of words of 64 bits, the least one left out. -/
def isWord (n : Int) : Bool :=
  -2 ^ (63 : Nat) < n && n < 2 ^ (63 : Nat)

/-- An integer, also as a truth value, a whole binary64 number or a text. -/
def integer : Reader Int
  | .int n => .ok n
  | .bool b => .ok (if b then 1 else 0)
  | .float x =>
    match x.toRat? with
    | none => problem .notFinite
    | some q =>
      if q.den ≠ 1 then problem .fraction
      else if isWord q.num then .ok q.num
      else problem .integerSize
  | .text s =>
    match Text.readInteger s with
    | .ok n => .ok n
    | .error .malformed => problem .notIntegerText
    | .error .tooLong => problem .integerSize
  | _ => problem .notInteger

/-- A binary64 number, also as an integer, a truth value or a text. -/
def number : Reader Binary64
  | .float x => .ok x
  | .int n =>
    match Binary64.ofInt? n with
    | some x => .ok x
    | none => problem .notNumber
  | .bool b => .ok (Binary64.ofRat (if b then 1 else 0))
  | .text s =>
    let stripped := (Text.stripUnderscores? s.toList).map String.ofList
    match (Binary64.read? 0 (Text.stripBy Text.isBlank s)).or (stripped.bind (Binary64.read? 0)) with
    | some x => .ok x
    | none => problem .notNumberText
  | _ => problem .notNumber

/-- A truth value, also as zero or one or as a word. -/
def boolean : Reader Bool
  | .bool b => .ok b
  | .int n => if n = -2 ^ (63 : Nat) then problem .notBooleanText else ofInt n
  | .float x =>
    match x.toInt? with
    | some n => ofInt n
    | none => problem .notBoolean
  | .text s =>
    match Text.readBool? s with
    | some b => .ok b
    | none => problem .notBooleanText
  | _ => problem .notBoolean
where
  /-- Zero and one. A number that no word holds is not even looked at. -/
  ofInt (n : Int) : Checked Problem Bool :=
    if n = 0 then .ok false
    else if n = 1 then .ok true
    else if isWord n then problem .notBooleanText
    else problem .notBoolean

def optional (reader : Reader α) : Reader (Option α)
  | .null => .ok none
  | source => (reader source).map some

def items (reader : Reader α) (sources : List Source) : Checked Problem (List α) :=
  .all ((sources.zipIdx).map fun (source, i) => under (Text.ofNat i) (reader source))

/-- A list, also as a tuple or a set. -/
def list (reader : Reader α) : Reader (List α)
  | .list sources | .tuple sources | .set sources => items reader sources
  | _ => problem .notList

/-- A tuple, also as a list or a set. -/
def tuple (reader : Reader α) : Reader (List α)
  | .list sources | .tuple sources | .set sources => items reader sources
  | _ => problem .notTuple

def entries (reader : Reader α) : Reader (List (String × α))
  | .record fields => .all (fields.map fun (k, x) => under k ((reader x).map (k, ·)))
  | _ => problem .notRecord

def callable : Reader Callable
  | .callable c => .ok c
  | _ => problem .notCallable

def record (schema : String) (fields : List (String × Source) → Checked Problem α) : Reader α
  | .record sources => fields sources
  | _ => problem (.notInstance schema)

/-- A field that must be there. -/
def required (name : String) (reader : Reader α) (sources : List (String × Source)) :
    Checked Problem α :=
  under name <|
    match sources.lookup name with
    | some source => reader source
    | none => problem .missing

def withDefault (name : String) (default : α) (reader : Reader α)
    (sources : List (String × Source)) : Checked Problem α :=
  under name <|
    match sources.lookup name with
    | some source => reader source
    | none => .ok default

def literal (options : List (String × α)) : Reader α
  | .text s =>
    match options.lookup s with
    | some a => .ok a
    | none => problem (.notLiteral (options.map (·.1)))
  | _ => problem (.notLiteral (options.map (·.1)))

def member (options : List (String × α)) : Reader α
  | .text s =>
    match options.lookup s with
    | some a => .ok a
    | none => problem (.notMember (options.map (·.1)))
  | _ => problem (.notMember (options.map (·.1)))

/-- A record whose field `tag` chooses the schema. -/
def choice (tag : String) (options : List (String × (List (String × Source) → Checked Problem α))) :
    Reader α
  | .record sources =>
    match sources.lookup tag with
    | none => problem (.noTag tag)
    | some (.text s) =>
      match options.lookup s with
      | some fields => under s (fields sources)
      | none => problem (.unknownTag s tag (options.map (·.1)))
    | some source => problem (.unknownTag source.toValue.plain tag (options.map (·.1)))
  | _ => problem .notAttributes

/-- Data of the shape, or the fault that lists the problems. -/
def accept : Checked Problem α → Except Fault α
  | .ok a => .ok a
  | .failed problems => .error (.invalid problems)

def run (reader : Reader α) (source : Source) : Except Fault α :=
  accept (reader source)

end Reader
end ForwardChaining
