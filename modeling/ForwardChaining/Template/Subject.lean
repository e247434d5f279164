import ForwardChaining.Fact.Basic
import ForwardChaining.Template.Format

/-!
This module contains what the fields of a template can reach: bound facts, of which only fields are
seen, the snapshots behind them with their data, values, and the types of all of these.
-/

namespace ForwardChaining.Template

/-- The name of a type and the place where it is defined. -/
structure TypeName where
  name : String
  place : String := "builtins"
deriving DecidableEq, Repr, Inhabited

namespace TypeName

def view : TypeName := ⟨"_FieldView", "ruleflow.runtime.actions"⟩

def snapshot : TypeName := ⟨"Fact", "ruleflow.facts.models"⟩

def data : TypeName := ⟨"FactData", "ruleflow.facts.models"⟩

def kind (type : TypeName) : TypeName :=
  if type = snapshot then ⟨"ModelMetaclass", "pydantic._internal._model_construction"⟩
  else if type = data then ⟨"ABCMeta", "abc"⟩
  else ⟨"type", "builtins"⟩

/-- The name behind the place. Only what is built in goes without a place. -/
def path (type : TypeName) : String :=
  (if type.place == "builtins" then "" else type.place ++ ".") ++ type.name

def label (type : TypeName) : String :=
  "<class '" ++ type.path ++ "'>"

def member (type : TypeName) (name : String) : Except Fault Value :=
  if name == "__name__" || name == "__qualname__" then .ok (.text type.name)
  else if name == "__module__" then .ok (.text type.place)
  else if type = snapshot then .error (.hiddenAttribute name)
  else .error (.noTypeAttribute type.name name)

end TypeName

inductive Subject where
  /-- A bound fact, of which only fields are seen. -/
  | fact (fact : Fact)
  /-- The snapshot behind a bound fact. -/
  | snapshot (fact : Fact)
  /-- The data of a snapshot, as a whole. -/
  | data (entries : Entries)
  /-- The entries of the data of a snapshot. -/
  | entries (entries : Entries)
  | value (x : Value)
  | type (name : TypeName)
deriving Repr, Inhabited

namespace Subject

def typeName : Subject → TypeName
  | .fact _ => .view
  | .snapshot _ => .snapshot
  | .data _ => .data
  | .entries _ => ⟨"dict", "builtins"⟩
  | .value x => ⟨x.typeName, "builtins"⟩
  | .type name => name.kind

/-! ### Texts -/

def parts (fact : Fact) : List String :=
  ["fact_id=" ++ Text.ofInt fact.id, "fact_type=" ++ Text.quoted fact.type,
    "data=" ++ fact.dataLiteral, "version=" ++ Text.ofInt fact.version,
    "recency=" ++ Text.ofInt fact.recency]

/-- A subject as plain text. A bound fact is shown by its label. -/
def plain : Subject → String
  | .fact f => f.label
  | .snapshot f => Text.joinWith " " (parts f)
  | .data es => "FactData(" ++ es.literal ++ ")"
  | .entries es => es.literal
  | .value x => x.plain
  | .type name => name.label

/-- The literal of a subject. That of a bound fact hides it. -/
def literal : Subject → String
  | .fact _ => "<" ++ TypeName.view.path ++ " object>"
  | .snapshot f => "Fact(" ++ Text.joinWith ", " (parts f) ++ ")"
  | .value x => x.literal
  | subject => subject.plain

/-- Can a subject be written: are all integers in it short? -/
def writable : Subject → Bool
  | .snapshot f => f.writable
  | .data es | .entries es => es.writable
  | .value x => x.writable
  | _ => true

/-- A text in which a subject is written, if it can be written at all. -/
def written (subject : Subject) (text : String) : Except Fault Subject :=
  if subject.writable then .ok (.value (.text text)) else .error .integerTooLong

/-- The conversion of a subject: as plain text, as a literal, or as a literal in ASCII. -/
def convert (subject : Subject) : Option Char → Except Fault Subject
  | none => .ok subject
  | some 's' => subject.written subject.plain
  | some 'r' => subject.written subject.literal
  | some 'a' => subject.written (Text.asciiOnly subject.literal)
  | some c => .error (.template (.unknownConversion c))

/-- A subject, formatted. Only facts and values can have a specification. -/
def format (subject : Subject) (spec : List Char) : Except Fault (List Char) :=
  match subject with
  | .fact f => Template.format (.text f.label) spec
  | .value x => Template.format x spec
  | subject =>
    if !spec.isEmpty then .error (.noFormat subject.typeName.name)
    else if subject.writable then .ok subject.plain.toList
    else .error .integerTooLong

/-! ### Members and items -/

/-- The parts that numbers have as members: every number is a complex one, an integer a fraction. -/
def numberMember (name : String) : Value → Option Value
  | .float x =>
    if name == "real" then some (.float x)
    else if name == "imag" then some (.float (Binary64.zero false))
    else none
  | x => x.exactInt?.bind fun n =>
    if name == "real" || name == "numerator" then some (.int n)
    else if name == "imag" then some (.int 0)
    else if name == "denominator" then some (.int 1)
    else none

/-- The member of a bound fact: a field, or the snapshot. Other names with an underscore are hidden. -/
def factMember (fact : Fact) (name : String) : Except Fault Subject :=
  if name == "_fact" then .ok (.snapshot fact)
  else if name.toList.head? == some '_' then .error (.hiddenAttribute name)
  else .ok (.value (fact.get name))

/-- The member of a snapshot: one of its parts. -/
def snapshotMember (fact : Fact) (name : String) : Except Fault Subject :=
  if name == "fact_id" then .ok (.value (.int fact.id))
  else if name == "fact_type" then .ok (.value (.text fact.type))
  else if name == "data" then .ok (.data fact.data)
  else if name == "version" then .ok (.value (.int fact.version))
  else if name == "recency" then .ok (.value (.int fact.recency))
  else .error (.noAttribute "Fact" name)

/-- Does a subject know the place where its type is defined? -/
def knowsPlace : Subject → Bool
  | .fact _ | .snapshot _ | .data _ => true
  | _ => false

/-- The member of a name. Every subject has its type as a member. -/
def member (name : String) (subject : Subject) : Except Fault Subject :=
  if name == "__class__" then .ok (.type subject.typeName)
  else if name == "__module__" && subject.knowsPlace then
    .ok (.value (.text subject.typeName.place))
  else
    match subject with
    | .fact f => factMember f name
    | .snapshot f => snapshotMember f name
    | .data es =>
      if name == "_values" then .ok (.entries es) else .error (.noAttribute "FactData" name)
    | .entries _ => .error (.noAttribute "dict" name)
    | .value (.callable _ called) =>
      if name == "__qualname__" then .ok (.value (.text called))
      else .error (.noAttribute "function" name)
    | .value x =>
      match numberMember name x with
      | some part => .ok (.value part)
      | none => .error (.noAttribute x.typeName name)
    | .type named => (named.member name).map .value

def entry (entries : Entries) (key : Value) : Except Fault Value :=
  match entries.get? key with
  | some x => .ok x
  | none => .error (.missingKey key)

/-- What stands at a place of a sequence, which is no text. -/
def place (type : String) (items : List Value) : Value → Except Fault Value
  | .int n =>
    match items[n.toNat]? with
    | some item => .ok item
    | none => .error (.indexOutOfRange type)
  | _ => .error (.badIndex type)

def item (key : Value) : Subject → Except Fault Value
  | .snapshot f => entry f.data key
  | .data es | .entries es => entry es key
  | .value (.list items) => place "list" items key
  | .value (.tuple items) => place "tuple" items key
  | .value (.text s) => place "str" (s.toList.map fun c => .text c.toString) key
  | .value (.record fields) => entry (.ofFields fields) key
  | .type named => .error (.typeNotSubscriptable named.name)
  | subject => .error (.notSubscriptable subject.typeName.name)

def reach (subject : Subject) : Accessor → Except Fault Subject
  | .member name => subject.member name
  | .index n => (subject.item (.int n)).map .value
  | .key name => (subject.item (.text name)).map .value

/-- What several accessors reach, one after the other. -/
def reachAll (subject : Subject) (path : List Accessor) : Except Fault Subject :=
  path.foldlM reach subject

end Subject
end ForwardChaining.Template
