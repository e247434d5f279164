import ForwardChaining.Fault

/-!
This module contains the reduction of values to what a report can hold: tuples and sets become lists,
numbers that are not finite become null, and keys become texts. Callables cannot be reported, and
neither can values that are nested too deep.
-/

namespace ForwardChaining

namespace Value

/-- How deep containers may be nested in a reported value. -/
def maxNesting : Nat := 255

def inside (room : Nat) : Except Fault Nat :=
  if room = 0 then .error .nestedTooDeep else .ok (room - 1)

mutual

/-- A value as it is reported, if its containers are nested no deeper than there is room for. -/
def reported (room : Nat) : Value → Except Fault Value
  | .float (.nan _) => .ok .null
  | .float (.infinite _) => .ok .null
  | .list items => do return .list (← reportedItems (← inside room) items)
  | .tuple items => do return .list (← reportedItems (← inside room) items)
  | .set items => do return .list (← reportedItems (← inside room) items)
  | .record fields => do return .record (← reportedFields (← inside room) fields)
  | .callable .. => .error (.unreportable "function")
  | x => .ok x
termination_by structural x => x

def reportedItems (room : Nat) : List Value → Except Fault (List Value)
  | [] => .ok []
  | x :: xs => do
    let y ← reported room x
    return y :: (← reportedItems room xs)
termination_by structural x => x

def reportedFields (room : Nat) : List (String × Value) → Except Fault Fields
  | [] => .ok []
  | (k, x) :: xs => do
    let y ← reported room x
    return (k, y) :: (← reportedFields room xs)
termination_by structural x => x

end

mutual

/-- How a key is spelled in a report. A tuple is spelled by its items, with commas between them. -/
def reportedKey : Value → String
  | .text s => s
  | .bool true => "true"
  | .bool false => "false"
  | .float (.nan _) => "None"
  | .float (.infinite _) => "None"
  | .tuple items => Text.joinWith "," (reportedKeys items)
  | x => x.literal
termination_by structural x => x

def reportedKeys : List Value → List String
  | [] => []
  | x :: xs => reportedKey x :: reportedKeys xs
termination_by structural x => x

end
end Value

/-- Entries as they are reported. Of those whose keys are spelled alike the last one counts. -/
def Entries.reported (entries : Entries) : Except Fault Fields := do
  let entries ← entries.mapM fun (k, x) => do return (k, ← x.reported Value.maxNesting)
  return Entries.toFields Value.reportedKey entries

end ForwardChaining
