import ForwardChaining.Json
import ForwardChaining.Network.Basic
import ForwardChaining.Script.Step
import ForwardChaining.Store.Basic
import ForwardChaining.Template.Basic

/-!
This module contains the execution of actions. An action sees the facts that its activation bound and
the values of named aggregates, changes the fact store, and explains itself. What it did before it
fails stays done.
-/

namespace ForwardChaining

/-- What an action sees and changes. -/
structure Firing (σ : Type := Network) where
  store : Store σ
  rule : String
  /-- The bound facts, as they were when the rule fired. -/
  bindings : Bindings
  /-- The values of named aggregates. -/
  values : Fields := []
  cycle : Value := .int 0
  explanations : List Value := []
  /-- The number of the next computation, which marks the NaNs that come out of it. -/
  serial : Nat := 0

/-- An action: it changes a firing and may fail. -/
abbrev Action (σ α : Type) := ExceptT Fault (StateM (Firing σ)) α

inductive Answer where
  | value (x : Value)
  | fact (fact : Fact)
  | facts (facts : List Fact)
  /-- The bound facts under their variables. -/
  | bound (bindings : Bindings)
deriving Repr, Inhabited

/-- The JSON form of a snapshot. Keys that are no texts are spelled as literals. -/
def Fact.tagged (fact : Fact) : Json :=
  .object [("id", .int fact.id), ("type", .text fact.type), ("version", .int fact.version),
    ("recency", .int fact.recency),
    ("data", (Value.record (fact.data.toFields Value.plain)).tagged)]

namespace Answer

def none : Answer :=
  .value .null

def tagged : Answer → Json
  | .value x => x.tagged
  | .fact f => f.tagged
  | .facts fs => .array (fs.map (·.tagged))
  | .bound bindings => .object (bindings.map fun (var, f) => (var, f.tagged))

end Answer

namespace Firing

variable {σ : Type}

def surroundings (firing : Firing σ) : Surroundings where
  bindings := firing.bindings
  values := firing.values
  cycle := firing.cycle
  rule := firing.rule
  live := firing.store.table.get
  population := fun tag => (firing.store.table.scan tag).map (·.length)

def explanation (firing : Firing σ) : Except Fault String :=
  (Fault.texts 0 firing.explanations).map (Text.joinWith "; ")

/-- What fields of a template can name: the bound facts and the values, which need names of their own. -/
def subjects (firing : Firing σ) : Except Fault Template.Subjects :=
  match firing.values.find? fun (name, _) => (firing.bindings.lookup name).isSome with
  | some (name, _) => .error (.repeatedName "str.format" name)
  | none => .ok (firing.bindings.map (fun (var, f) => (var, .fact f))
      ++ firing.values.map fun (name, x) => (name, .value x))

def format (firing : Firing σ) : Value → Except Fault String
  | .text template => do Template.text (← firing.subjects) template
  | x => .error (.noAttribute x.typeName "format")

end Firing

namespace Action

variable {σ : Type}

def change (f : Store σ → Store σ × Except Fault α) : Action σ α := do
  let firing ← get
  let (store, result) := f firing.store
  set { firing with store }
  liftExcept result
where
  /-- A result or a fault. -/
  liftExcept : Except Fault α → Action σ α
    | .ok a => pure a
    | .error fault => throw fault

def see (f : Firing σ → Except Fault α) : Action σ α := do
  match f (← get) with
  | .ok a => return a
  | .error fault => throw fault

def identity (target : Target) : Action σ Value :=
  see fun firing => firing.surroundings.identity target

def explain (reason : Value) : Action σ Unit :=
  modify fun firing => { firing with explanations := firing.explanations ++ [reason] }

/-- The value of an expression. NaNs that come out of it are new ones. -/
def evaluate (e : Expr) : Action σ Value := do
  let serial := (← get).serial
  modify fun firing => { firing with serial := serial + 1 }
  see fun firing => e.eval { surroundings := some firing.surroundings, serial }

def resolve : Operand → Action σ Value
  | .literal x => return x
  | .computed _ e => evaluate e

/-- Insert a fact with data and named fields, which win over the data. -/
def insert (tag data : Value) (fields : Fields) : Action σ Answer := do
  see fun _ => fields.requireFree "ActionContext.insert" ["self", "fact_type", "data"]
  let data ← match data with
    | .record data => pure data
    | x => if x.truthy then throw (.notMapping x.typeName) else pure []
  return .value (.int (← change (·.insert tag (.record (Fields.merge data fields)))))

/-- Change some fields of a fact and keep the others. -/
def modify (target : Target) (changes : Fields) : Action σ Answer := do
  see fun _ => changes.requireFree "ActionContext.modify" ["self", "target"]
  let ref ← identity target
  return .fact (← change (·.modify ref changes))

def retract (target : Target) : Action σ Answer := do
  let ref ← identity target
  return .fact (← change (·.retract ref))

def current (target : Target) : Action σ Fact := do
  let ref ← identity target
  see (·.store.table.get ref)

def step : Step → Action σ Answer
  | .insert type data => insert type data []
  | .insertWith type data fields => insert type data fields
  | .update target data => do
    let ref ← identity target
    return .fact (← change (·.update ref data))
  | .modify target changes => modify target changes
  | .retract target => retract target
  | .current target => return .fact (← current target)
  | .get ref => return .fact (← see (·.store.table.get ref))
  | .scan type => return .facts (← see (·.store.table.scan type))
  | .explain reason => do
    explain reason
    return .none
  | .format template => return .value (.text (← see (·.format template)))
  | .fact var => return .fact (← see (lookUp ·.bindings var))
  | .value name => return .value (← see (lookUp ·.values name))
  | .facts => return .bound (← get).bindings
  | .explanation => return .value (.text (← see (·.explanation)))
  | .eval e => return .value (← evaluate e)
  | .fail kind message => throw (.ofKind kind message)
  | .write var _ _ => do
    let _ ← see (lookUp ·.bindings var)
    throw .readOnly
  | .note inner => do
    let answer := (← step inner).tagged
    if !answer.writable then throw .integerTooLong
    explain (.text (answer.render Json.compact))
    return .none
  | .attempt inner => do
    try
      let _ ← step inner
    catch fault => explain (.text fault.kind)
    return .none

/-- Run steps in order. -/
def steps : List Step → Action σ Unit
  | [] => return ()
  | s :: ss => do
    let _ ← step s
    steps ss

def resolveAll : List (String × Operand) → Action σ Fields
  | [] => return []
  | (field, operand) :: operands => do
    let x ← resolve operand
    return (field, x) :: (← resolveAll operands)

/-- Append a value to the list in a field. Whatever counts as false stands for the empty list. -/
def append (var field : String) (operand : Operand) (unique : Bool) : Action σ Unit := do
  let x ← resolve operand
  let old := (← current (.named (.text var))).get field
  let items ← if old.truthy then
      match old.elements? with
      | some items => pure items
      | none => throw (.notIterable old.typeName)
    else pure []
  if unique && x.isIn items then return ()
  let _ ← modify (.named (.text var)) [(field, .list (items ++ [x]))]

def part : ActionStep → Action σ Unit
  | .set var field operand => do
    let x ← resolve operand
    let _ ← modify (.named (.text var)) [(field, x)]
  | .append var field operand unique => append var field operand unique
  | .insert type operands => do
    let data ← resolveAll operands
    let _ ← insert (.text type) (.record data) []
  | .retract var => do
    let _ ← retract (.named (.text var))
  | .explain template => do
    explain (.text (← see (·.format (.text template))))
  | .script ss => steps ss

/-- Run the parts of the action of a rule in order. -/
def parts : List ActionStep → Action σ Unit
  | [] => return ()
  | p :: ps => do
    part p
    parts ps

/-- Explain the firing by the template of the rule, if there is one, and run its action. -/
def ofRule (rule : Rule) : Action σ Unit := do
  match rule.explanation with
  | some template =>
    if template ≠ "" then explain (.text (← see (·.format (.text template))))
  | none => pure ()
  parts rule.action

end Action

def Firing.perform (firing : Firing σ) (action : Action σ α) : Firing σ × Except Fault α :=
  let (result, firing) := (ExceptT.run action).run firing
  (firing, result)

end ForwardChaining
