import ForwardChaining.Template.Subject

/-!
This module contains the filling in of templates. A field names a bound fact or a value, reaches into
it, and is replaced by the formatted result. The first error from left to right is the one reported.
-/

namespace ForwardChaining.Template

abbrev Subjects := List (String × Subject)

/-- The subject that a field stands for. No subject is named by a number. -/
def Field.subject (field : Field) (subjects : Subjects) : Except Fault Subject := do
  if let some n ← check (number? field.head) then throw (.noPositional n)
  if field.head.isEmpty then throw (.noPositional 0)
  let name := String.ofList field.head
  match subjects.lookup name with
  | none => throw (.missingKey (.text name))
  | some subject =>
    let (path, error) := field.path
    let reached ← subject.reachAll path
    match error with
    | some e => throw (.template e)
    | none => return reached

/-- The text of a field, when its specification is already filled in. -/
def Field.render (field : Field) (subjects : Subjects)
    (fill : List Char → Except Fault (List Char)) : Except Fault (List Char) := do
  let subject ← (← field.subject subjects).convert field.conversion
  subject.format (← if field.nested then fill field.spec else .ok field.spec)

def renderAll (subjects : Subjects) (fill : List Char → Except Fault (List Char))
    (scanned : Scanned Piece) : Except Fault (List Char) := do
  let parts ← scanned.1.mapM fun piece =>
    match piece with
    | .literal c => .ok [c]
    | .field field => field.render subjects fill
  match scanned.2 with
  | some e => throw (.template e)
  | none => return parts.flatten

/-- Fill in a template, with fields in specifications up to a depth. -/
def fillIn (subjects : Subjects) : Nat → List Char → Except Fault (List Char)
  | 0, _ => .error (.template .tooDeep)
  | depth + 1, template => renderAll subjects (fillIn subjects depth) (pieces template)

/-- Fill in a template: its fields may have fields in their specifications, but not deeper. -/
def text (subjects : Subjects) (template : String) : Except Fault String :=
  (fillIn subjects 2 template.toList).map String.ofList

end ForwardChaining.Template
