/-!
This module contains the decimal text of integers, the search for a text inside another, and the
joining of texts.
-/

namespace ForwardChaining.Text

def ofNat (n : Nat) : String :=
  String.ofList (Nat.toDigits 10 n)

/-- The decimal digits of an integer, after a minus sign if it is negative. -/
def ofInt : Int → String
  | .ofNat n => ofNat n
  | .negSucc n => "-" ++ ofNat (n + 1)

def natOfDigits (digits : List Char) : Nat :=
  digits.foldl (fun n c => 10 * n + (c.toNat - '0'.toNat)) 0

/-- Do the characters of `part` occur in `cs` one after the other? -/
def occursIn (part : List Char) : List Char → Bool
  | [] => part.isEmpty
  | c :: cs => part.isPrefixOf (c :: cs) || occursIn part cs

def joinWith (separator : String) (parts : List String) : String :=
  separator.intercalate parts

/-- Options in quotes: a comma between them, and `or` before the last. -/
def alternatives (options : List String) : String :=
  let quoted := options.map fun o => "'" ++ o ++ "'"
  match quoted.reverse with
  | [] => ""
  | [o] => o
  | last :: others => joinWith ", " others.reverse ++ " or " ++ last

end ForwardChaining.Text
