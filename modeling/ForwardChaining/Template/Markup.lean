import ForwardChaining.Fault
import ForwardChaining.Text.Digit

/-!
This module contains the markup of templates: literal text, in which braces are doubled, and
replacement fields. A template is scanned from left to right, and what comes before an error is valid,
so the pieces before an error are given together with it.
-/

namespace ForwardChaining.Template

-- powers are those of the core library, also in the presence of others
attribute [local instance (high)] instPowNat

/-- A scanner: what it does with one character, and what at the end. -/
structure Scanner (σ α : Type) where
  step : σ → Char → Except TemplateError (σ × List α)
  finish : σ → Except TemplateError (List α)

/-- What has been scanned, and the error that ended it early. -/
abbrev Scanned (α : Type) := List α × Option TemplateError

def Scanner.run (scanner : Scanner σ α) (state : σ) : List Char → Scanned α
  | [] =>
    match scanner.finish state with
    | .ok found => (found, none)
    | .error e => ([], some e)
  | c :: cs =>
    match scanner.step state c with
    | .ok (state, found) =>
      let (later, e) := scanner.run state cs
      (found ++ later, e)
    | .error e => ([], some e)

structure Field where
  name : List Char
  conversion : Option Char := none
  /-- How the value is formatted. -/
  spec : List Char := []
  /-- Are there fields in the format itself? -/
  nested : Bool := false
deriving DecidableEq, Repr

inductive Piece where
  | literal (c : Char)
  | field (field : Field)
deriving DecidableEq, Repr

/-- Where a template has been scanned to. -/
inductive Place where
  | text
  /-- Behind an opening brace. -/
  | opening
  /-- Behind a closing brace. -/
  | closing
  | name (name : List Char)
  /-- In brackets, inside a name. -/
  | bracket (name : List Char)
  /-- Behind an exclamation mark. -/
  | mark (name : List Char)
  /-- Behind a conversion. -/
  | converted (name : List Char) (conversion : Char)
  /-- In a format, `depth` braces deep. -/
  | spec (field : Field) (depth : Nat)
deriving DecidableEq, Repr

def nameStep (name : List Char) (c : Char) : Except TemplateError (Place × List Piece) :=
  match c with
  | '\x7b' => .error .openingInName
  | '[' => .ok (.bracket (name ++ [c]), [])
  | '\x7d' => .ok (.text, [.field { name }])
  | ':' => .ok (.spec { name } 1, [])
  | '!' => .ok (.mark name, [])
  | _ => .ok (.name (name ++ [c]), [])

def templateStep (place : Place) (c : Char) : Except TemplateError (Place × List Piece) :=
  match place, c with
  | .text, '\x7b' => .ok (.opening, [])
  | .text, '\x7d' => .ok (.closing, [])
  | .text, c => .ok (.text, [.literal c])
  | .opening, '\x7b' => .ok (.text, [.literal '\x7b'])
  | .opening, c => nameStep [] c
  | .closing, '\x7d' => .ok (.text, [.literal '\x7d'])
  | .closing, _ => .error .singleClosing
  | .name name, c => nameStep name c
  | .bracket name, ']' => .ok (.name (name ++ [']']), [])
  | .bracket name, c => .ok (.bracket (name ++ [c]), [])
  | .mark name, c => .ok (.converted name c, [])
  | .converted name k, '\x7d' => .ok (.text, [.field { name, conversion := some k }])
  | .converted name k, ':' => .ok (.spec { name, conversion := some k } 1, [])
  | .converted _ _, _ => .error .afterConversion
  | .spec field depth, '\x7b' =>
    .ok (.spec { field with spec := field.spec ++ ['\x7b'], nested := true } (depth + 1), [])
  | .spec field depth, '\x7d' =>
    if depth ≤ 1 then .ok (.text, [.field field])
    else .ok (.spec { field with spec := field.spec ++ ['\x7d'] } (depth - 1), [])
  | .spec field depth, c => .ok (.spec { field with spec := field.spec ++ [c] } depth, [])

def templateEnd : Place → Except TemplateError (List Piece)
  | .text => .ok []
  | .opening => .error .singleOpening
  | .closing => .error .singleClosing
  | .name _ => .error .unclosedField
  | .bracket _ => .error .unclosedField
  | .mark _ => .error .noConversion
  | .converted .. => .error .unclosedSpec
  | .spec .. => .error .unclosedSpec

def pieces (template : List Char) : Scanned Piece :=
  Scanner.run ⟨templateStep, templateEnd⟩ .text template

/-! ### Field names -/

def maxNumber : Nat := 2 ^ (63 : Nat) - 1

/-- The number at the start of a text, how many digits it has, and the rest. -/
def readNumber (n count : Nat) : List Char → Except TemplateError (Nat × Nat × List Char)
  | [] => .ok (n, count, [])
  | c :: cs =>
    match Text.digit? c with
    | none => .ok (n, count, c :: cs)
    | some d =>
      if maxNumber < 10 * n + d then .error .tooManyDigits
      else readNumber (10 * n + d) (count + 1) cs

/-- The number that a text is, if it consists of digits. -/
def number? (cs : List Char) : Except TemplateError (Option Nat) := do
  let (n, count, rest) ← readNumber 0 0 cs
  return if count = 0 || !rest.isEmpty then none else some n

/-- How a field reaches into a value. -/
inductive Accessor where
  | member (name : String)
  | index (n : Nat)
  | key (name : String)
deriving DecidableEq, Repr

/-- Where the accessors of a field have been scanned to. -/
inductive PathPlace where
  | between
  | member (name : List Char)
  | item (name : List Char)
deriving DecidableEq, Repr

def member (name : List Char) : Except TemplateError Accessor :=
  if name.isEmpty then .error .emptyAttribute else .ok (.member (String.ofList name))

def item (name : List Char) : Except TemplateError Accessor := do
  match ← number? name with
  | some n => return .index n
  | none =>
    if name.isEmpty then throw .emptyAttribute else return .key (String.ofList name)

def pathStep (place : PathPlace) (c : Char) : Except TemplateError (PathPlace × List Accessor) :=
  match place, c with
  | .between, '.' => .ok (.member [], [])
  | .between, '[' => .ok (.item [], [])
  | .between, _ => .error .afterBracket
  | .member name, '.' => (member name).map fun a => (.member [], [a])
  | .member name, '[' => (member name).map fun a => (.item [], [a])
  | .member name, c => .ok (.member (name ++ [c]), [])
  | .item name, ']' => (item name).map fun a => (.between, [a])
  | .item name, c => .ok (.item (name ++ [c]), [])

def pathEnd : PathPlace → Except TemplateError (List Accessor)
  | .between => .ok []
  | .member name => (member name).map fun a => [a]
  | .item _ => .error .unclosedBracket

/-- The name that a field begins with: all before the first point or bracket. -/
def Field.head (field : Field) : List Char :=
  field.name.takeWhile fun c => c != '.' && c != '['

def Field.path (field : Field) : Scanned Accessor :=
  Scanner.run ⟨pathStep, pathEnd⟩ .between (field.name.drop field.head.length)

end ForwardChaining.Template
