import ForwardChaining.Value.Key
import ForwardChaining.Value.Literal

/-!
This module contains JSON documents, their text in several styles, and the JSON forms of values: the
tagged form, which keeps every type apart, and the canonical form, over which digests are taken.
-/

namespace ForwardChaining

/-- A JSON document. The fields of an object keep their order. -/
inductive Json where
  | null
  | bool (b : Bool)
  | int (n : Int)
  | float (x : Binary64)
  | text (s : String)
  | array (items : List Json)
  | object (fields : List (String × Json))
deriving Repr, Inhabited

/-- How a document is written. -/
structure Json.Style where
  itemSeparator : String
  keySeparator : String
  /-- Escape every character beyond printable ASCII. -/
  ascii : Bool
  /-- Write the fields of objects in ascending order of their keys. -/
  sorted : Bool

namespace Json

/-- The style of digests: blanks after separators, ASCII only, sorted keys. -/
def canonical : Style := ⟨", ", ": ", true, true⟩

/-- The style of notes: no blanks, sorted keys. -/
def compact : Style := ⟨",", ":", false, true⟩

/-- The style of log lines: blanks after separators, ASCII only, keys as they are. -/
def spaced : Style := ⟨", ", ": ", true, false⟩

/-- `\u` and four digits. -/
def escapeUnit (n : Nat) : List Char :=
  '\\' :: 'u' :: Text.hex 4 n

/-- The escape of a character by its code point, as two units beyond the first plane. -/
def escapeCode (c : Char) : List Char :=
  let n := c.toNat
  if n < 0x10000 then escapeUnit n
  else escapeUnit (0xd800 + (n - 0x10000) / 0x400) ++ escapeUnit (0xdc00 + (n - 0x10000) % 0x400)

def escapeChar (ascii : Bool) (c : Char) : List Char :=
  if c == '"' then ['\\', '"']
  else if c == '\\' then ['\\', '\\']
  else if c == '\n' then ['\\', 'n']
  else if c == '\r' then ['\\', 'r']
  else if c == '\t' then ['\\', 't']
  else if c.toNat == 8 then ['\\', 'b']
  else if c.toNat == 12 then ['\\', 'f']
  else if c.toNat < 0x20 || (ascii && 0x7e < c.toNat) then escapeCode c
  else [c]

def quote (ascii : Bool) (s : String) : String :=
  String.ofList ('"' :: (s.toList.flatMap (escapeChar ascii) ++ ['"']))

/-- A binary64 number; the ones that are not finite have names. -/
def floatText : Binary64 → String
  | .nan _ => "NaN"
  | .infinite false => "Infinity"
  | .infinite true => "-Infinity"
  | x => x.text

mutual

def render (style : Style) : Json → String
  | .null => "null"
  | .bool true => "true"
  | .bool false => "false"
  | .int n => Text.ofInt n
  | .float x => floatText x
  | .text s => quote style.ascii s
  | .array items => "[" ++ Text.joinWith style.itemSeparator (renderItems style items) ++ "]"
  | .object fields =>
    let members := renderFields style fields
    let members := if style.sorted then sortByKey members else members
    "\x7b" ++ Text.joinWith style.itemSeparator (members.map fun (k, written) =>
      quote style.ascii k ++ style.keySeparator ++ written) ++ "\x7d"
termination_by structural x => x

def renderItems (style : Style) : List Json → List String
  | [] => []
  | x :: xs => render style x :: renderItems style xs
termination_by structural x => x

def renderFields (style : Style) : List (String × Json) → List (String × String)
  | [] => []
  | (k, x) :: xs => (k, render style x) :: renderFields style xs
termination_by structural x => x

end

mutual

/-- Can the document be written: are all integers in it short? -/
def writable : Json → Bool
  | .int n => Value.isShort n
  | .array items => writableItems items
  | .object fields => writableFields fields
  | _ => true
termination_by structural x => x

def writableItems : List Json → Bool
  | [] => true
  | x :: xs => writable x && writableItems xs
termination_by structural x => x

def writableFields : List (String × Json) → Bool
  | [] => true
  | (_, x) :: xs => writable x && writableFields xs
termination_by structural x => x

end
end Json

namespace Value

/-- The documents in ascending order of their texts. -/
def sortByText (items : List Json) : List Json :=
  (sortByKey (items.map fun x => (x.render Json.compact, x))).map (·.2)

mutual

/-- The JSON form in which every type has a form of its own. -/
def tagged : Value → Json
  | .null => .null
  | .bool b => .bool b
  | .int n => .int n
  | .float x => .object [("$float", .text x.text)]
  | .text s => .text s
  | .list items => .array (taggedItems items)
  | .tuple items => .object [("$tuple", .array (taggedItems items))]
  | .set items => .object [("$set", .array (sortByText (taggedItems items)))]
  | .record fields => .object (taggedFields fields)
  | .callable _ name => .object [("$fn", .text name)]
termination_by structural x => x

def taggedItems : List Value → List Json
  | [] => []
  | x :: xs => tagged x :: taggedItems xs
termination_by structural x => x

def taggedFields : List (String × Value) → List (String × Json)
  | [] => []
  | (k, x) :: xs => (k, tagged x) :: taggedFields xs
termination_by structural x => x

end

mutual

/--
The JSON form for digests: tuples are arrays, a set is the text of its literal, and a callable counts by
its name.
-/
def canonical : Value → Json
  | .null => .null
  | .bool b => .bool b
  | .int n => .int n
  | .float x => .float x
  | .text s => .text s
  | .list items => .array (canonicalItems items)
  | .tuple items => .array (canonicalItems items)
  | .set items => .text (Value.set items).literal
  | .record fields => .object (canonicalFields fields)
  | .callable _ name => .text name
termination_by structural x => x

def canonicalItems : List Value → List Json
  | [] => []
  | x :: xs => canonical x :: canonicalItems xs
termination_by structural x => x

def canonicalFields : List (String × Value) → List (String × Json)
  | [] => []
  | (k, x) :: xs => (k, canonical x) :: canonicalFields xs
termination_by structural x => x

end

end Value
end ForwardChaining
