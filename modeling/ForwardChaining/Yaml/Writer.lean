import ForwardChaining.Value.Literal
import ForwardChaining.Yaml.Scalar

/-!
This module contains the writing of values as YAML documents in block style. Records keep the order of
their keys, a list in a record stands at the indentation of its key, and long texts are folded at
blanks behind the eightieth column.
-/

namespace ForwardChaining.Yaml

/-- The document so far, and where its end is. -/
structure Pen where
  /-- The characters written, the last one first. -/
  written : List Char := []
  column : Nat := 0
  /-- Is the end behind white space? -/
  blank : Bool := true
  /-- Does the line hold nothing but indentation and indicators so far? -/
  fresh : Bool := true

namespace Pen

def bestWidth : Nat := 80

def write (pen : Pen) (cs : List Char) : Pen :=
  { pen with written := cs.reverse ++ pen.written, column := pen.column + cs.length }

def endLine (pen : Pen) (lineBreak : Char) : Pen :=
  { written := lineBreak :: pen.written, column := 0, blank := true, fresh := true }

/-- Go to an indentation, on a new line unless nothing stands in the way. -/
def goTo (pen : Pen) (indent : Nat) : Pen :=
  let pen :=
    if !pen.fresh || indent < pen.column || (pen.column == indent && !pen.blank) then
      pen.endLine '\n'
    else pen
  if pen.column < indent then
    { pen.write (List.replicate (indent - pen.column) ' ') with blank := true }
  else pen

/-- Something is written that is no indicator. -/
def content (pen : Pen) : Pen :=
  { pen with blank := false, fresh := false }

/-- Leave a blank, unless there is one. -/
def space (pen : Pen) : Pen :=
  if pen.blank then pen else pen.write [' ']

def indicator (pen : Pen) (c : Char) : Pen :=
  { pen.space.write [c] with blank := false, fresh := pen.fresh }

/-- Is the end behind the column at which lines are folded? -/
def isLong (pen : Pen) : Bool :=
  bestWidth < pen.column

def runs (cs : List Char) : List (List Char) :=
  let kind (c : Char) : Nat := if c == ' ' then 0 else if isBreak c then 1 else 2
  cs.splitBy fun a b => kind a == kind b

/-- The runs of a plain text. A single blank may become the end of a line. -/
def plainRuns (indent : Nat) (fold : Bool) (pen : Pen) : List (List Char) → Pen
  | [] => pen
  | run :: rest =>
    if run == [' '] && pen.isLong && fold then plainRuns indent fold (pen.goTo indent).content rest
    else plainRuns indent fold (pen.write run) rest

def plain (pen : Pen) (indent : Nat) (fold : Bool) (cs : List Char) : Pen :=
  plainRuns indent fold pen.space.content (runs cs)

/-- End lines: one more than the breaks that stand in the text. -/
def endLines (pen : Pen) (breaks : List Char) : Pen :=
  let pen := if breaks.head? == some '\n' then pen.endLine '\n' else pen
  breaks.foldl endLine pen

/-- The runs of a text between single quotes; quotes are doubled. -/
def singleRuns (indent : Nat) (fold first : Bool) (pen : Pen) : List (List Char) → Pen
  | [] => pen
  | run :: rest =>
    let pen :=
      if run == [' '] && pen.isLong && fold && !first && !rest.isEmpty then pen.goTo indent
      else if run.any isBreak then (pen.endLines run).goTo indent
      else pen.write (run.flatMap fun c => if c == '\'' then ['\'', '\''] else [c])
    singleRuns indent fold false pen rest

def single (pen : Pen) (indent : Nat) (fold : Bool) (cs : List Char) : Pen :=
  ((singleRuns indent fold true (pen.space.write ['\'']).content (runs cs)).write ['\'']).content

def letterEscapes : List (Nat × Char) :=
  [(0, '0'), (7, 'a'), (8, 'b'), (9, 't'), (10, 'n'), (11, 'v'), (12, 'f'), (13, 'r'), (27, 'e'),
    (0x22, '"'), (0x5c, '\\'), (0x85, 'N'), (0xa0, '_'), (0x2028, 'L'), (0x2029, 'P')]

def escape (c : Char) : List Char :=
  let upper (width n : Nat) := (Text.hex width n).map Char.toUpper
  match letterEscapes.lookup c.toNat with
  | some letter => ['\\', letter]
  | none =>
    if c.toNat < 0x100 then '\\' :: 'x' :: upper 2 c.toNat
    else if c.toNat < 0x10000 then '\\' :: 'u' :: upper 4 c.toNat
    else '\\' :: 'U' :: upper 8 c.toNat

/-- Characters that are escaped between double quotes. -/
def needsEscape (c : Char) : Bool :=
  let n := c.toNat
  c == '"' || c == '\\' || isBreak c || n == 0xfeff ||
    !((0x20 ≤ n && n ≤ 0x7e) || (0xa0 ≤ n && n ≤ 0xd7ff) || (0xe000 ≤ n && n ≤ 0xfffd))

/-- Fold a line: a backslash ends it, and another one keeps a blank at the start of the next. -/
def foldLine (pen : Pen) (indent : Nat) (next : Option Char) : Pen :=
  let pen := ((pen.write ['\\']).goTo indent).content
  if next == some ' ' then pen.write ['\\'] else pen

/--
The characters of a text between double quotes. Those in `held` are not written yet, so that a line can
be folded before the blank that ends them.
-/
def doubleChars (indent : Nat) (fold first : Bool) (pen : Pen) (held : List Char) :
    List Char → Pen
  | [] => pen.write held
  | c :: cs =>
    let mayFold := fold && !first && !cs.isEmpty
    if needsEscape c then
      let pen := (pen.write held).write (escape c)
      let pen :=
        if mayFold && bestWidth + 1 < pen.column then pen.foldLine indent cs.head? else pen
      doubleChars indent fold false pen [] cs
    else if mayFold && (c == ' ' || held.isEmpty) && bestWidth < pen.column + held.length then
      doubleChars indent fold false ((pen.write held).foldLine indent (some c)) [c] cs
    else doubleChars indent fold false pen (held ++ [c]) cs

def double (pen : Pen) (indent : Nat) (fold : Bool) (cs : List Char) : Pen :=
  ((doubleChars indent fold true (pen.space.write ['"']).content [] cs).write ['"']).content

/-- A text in its style. A key is not folded. -/
def text (pen : Pen) (indent : Nat) (isKey : Bool) (cs : List Char) : Pen :=
  match styleOf isKey cs with
  | .plain => pen.plain indent (!isKey) cs
  | .single => pen.single indent (!isKey) cs
  | .double => pen.double indent (!isKey) cs

/-- A key and its colon. A key that cannot stand before its colon has a line of its own. -/
def key (pen : Pen) (indent : Nat) (k : String) : Pen :=
  let cs := k.toList
  let pen := pen.goTo indent
  if isSimpleKey cs then ((pen.text (indent + 2) true cs).write [':']).content
  else (((pen.indicator '?').text (indent + 2) false cs).goTo indent).indicator ':'

end Pen

/-- A binary64 number; an exponent needs a point before it. -/
def floatText (x : Binary64) : List Char :=
  match x with
  | .nan _ => ".nan".toList
  | .infinite false => ".inf".toList
  | .infinite true => "-.inf".toList
  | x =>
    let cs := x.text.toList
    if cs.contains '.' then cs
    else cs.flatMap fun c => if c == 'e' then ['.', '0', 'e'] else [c]

mutual

/-- Write a value. `inRecord` tells whether it stands behind a key. -/
def node (pen : Pen) (indent : Nat) (inRecord : Bool) : Value → Pen
  | .null => pen.plain (indent + 2) true "null".toList
  | .bool b => pen.plain (indent + 2) true (if b then "true" else "false").toList
  | .int n => pen.plain (indent + 2) true (Text.ofInt n).toList
  | .float x => pen.plain (indent + 2) true (floatText x)
  | .text s => pen.text (indent + 2) false s.toList
  | .callable _ name => pen.text (indent + 2) false name.toList
  | .list items => list pen indent inRecord items
  | .tuple items => list pen indent inRecord items
  | .set items => list pen indent inRecord items
  | .record fields =>
    match fields with
    | [] => (pen.space.write ['\x7b', '\x7d']).content
    | fields => record pen (indent + 2) fields
termination_by structural x => x

/-- Write a list. Behind a key on the same line it is not indented further. -/
def list (pen : Pen) (indent : Nat) (inRecord : Bool) : List Value → Pen
  | [] => (pen.space.write ['[', ']']).content
  | x :: xs =>
    let indent := if inRecord && !pen.fresh then indent else indent + 2
    items (node ((pen.goTo indent).indicator '-') indent false x) indent xs
termination_by structural x => x

def items (pen : Pen) (indent : Nat) : List Value → Pen
  | [] => pen
  | x :: xs => items (node ((pen.goTo indent).indicator '-') indent false x) indent xs
termination_by structural x => x

def record (pen : Pen) (indent : Nat) : List (String × Value) → Pen
  | [] => pen
  | (k, x) :: fields => record (node (pen.key indent k) indent true x) indent fields
termination_by structural x => x

end

def document (fields : Fields) : String :=
  let pen : Pen := {}
  let pen := match fields with
    | [] => (pen.write ['\x7b', '\x7d']).content
    | fields => record pen 0 fields
  String.ofList (pen.goTo 0).written.reverse

end ForwardChaining.Yaml
