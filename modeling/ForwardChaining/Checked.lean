/-!
This module contains results that collect every problem instead of stopping at the first one.
-/

namespace ForwardChaining

/-- A result, or all the problems that prevent it. -/
inductive Checked (ε : Type u) (α : Type v) where
  | ok (a : α)
  | failed (problems : List ε)
deriving Repr

namespace Checked

/-- The problems; none if there is a result. -/
def problems : Checked ε α → List ε
  | .ok _ => []
  | .failed ps => ps

def toOption : Checked ε α → Option α
  | .ok a => some a
  | .failed _ => none

def map (f : α → β) : Checked ε α → Checked ε β
  | .ok a => .ok (f a)
  | .failed ps => .failed ps

def mapProblems (f : ε → δ) : Checked ε α → Checked δ α
  | .ok a => .ok a
  | .failed ps => .failed (ps.map f)

/-- Apply a function to an argument; the problems of both are kept, those of the function first. -/
def apply : Checked ε (α → β) → Checked ε α → Checked ε β
  | .ok f, .ok a => .ok (f a)
  | .ok _, .failed ps => .failed ps
  | .failed ps, .ok _ => .failed ps
  | .failed ps, .failed qs => .failed (ps ++ qs)

instance : Applicative (Checked ε) where
  pure := .ok
  seq f x := apply f (x ())

def fail (problem : ε) : Checked ε α :=
  .failed [problem]

def andThen (x : Checked ε α) (f : α → Checked ε β) : Checked ε β :=
  match x with
  | .ok a => f a
  | .failed ps => .failed ps

/-- All results, or the problems of all in order. -/
def all : List (Checked ε α) → Checked ε (List α)
  | [] => .ok []
  | x :: xs => apply (map List.cons x) (all xs)

end Checked
end ForwardChaining
