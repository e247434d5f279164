/-!
This module contains patterns of characters and the test whether a whole text fits one. A pattern is
tested character by character: its rest after a character is again a pattern.
-/

namespace ForwardChaining

inductive Pattern where
  | none
  | empty
  | one (p : Char → Bool)
  | seq (a b : Pattern)
  | either (a b : Pattern)
  | many (a : Pattern)

namespace Pattern

def fitsEmpty : Pattern → Bool
  | .none => false
  | .empty => true
  | .one _ => false
  | .seq a b => a.fitsEmpty && b.fitsEmpty
  | .either a b => a.fitsEmpty || b.fitsEmpty
  | .many _ => true

/-- One pattern after another; what fits nothing is not built up. -/
def andThen (a b : Pattern) : Pattern :=
  match a with
  | .none => .none
  | .empty => b
  | a => .seq a b

/-- One of two patterns; what fits nothing is not built up. -/
def orElse (a b : Pattern) : Pattern :=
  match a, b with
  | .none, b => b
  | a, .none => a
  | a, b => .either a b

def rest (c : Char) : Pattern → Pattern
  | .none => .none
  | .empty => .none
  | .one p => if p c then .empty else .none
  | .seq a b =>
    let first := (a.rest c).andThen b
    if a.fitsEmpty then first.orElse (b.rest c) else first
  | .either a b => (a.rest c).orElse (b.rest c)
  | .many a => (a.rest c).andThen (.many a)

def fits (a : Pattern) : List Char → Bool
  | [] => a.fitsEmpty
  | c :: cs => (a.rest c).fits cs

def oneOf (cs : String) : Pattern :=
  .one cs.toList.contains

def digit : Pattern :=
  .one Char.isDigit

def opt (a : Pattern) : Pattern :=
  .either .empty a

def some (a : Pattern) : Pattern :=
  .seq a (.many a)

def all : List Pattern → Pattern
  | [] => .empty
  | [a] => a
  | a :: as => .seq a (all as)

def any : List Pattern → Pattern
  | [] => .none
  | [a] => a
  | a :: as => .either a (any as)

def word (s : String) : Pattern :=
  all (s.toList.map fun c => .one (· == c))

def words (options : List String) : Pattern :=
  any (options.map word)

end Pattern
end ForwardChaining
