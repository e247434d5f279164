import ForwardChaining.Rule.Digest
import ForwardChaining.Rule.TypeIndex

/-!
This module contains the compilation of rule set specifications. Every structural defect is found and
all are reported together; a rule set that compiles is never refused later.
-/

namespace ForwardChaining

/-- A part of a rule set, or the defects that it has. -/
abbrev Compiled (α : Type) := Checked String α

/-- The variables bound so far, each with the type of its fact. -/
abbrev Bound := List (String × String)

abbrev Declarations := List FactType

namespace Compiled

def defect (place message : String) : Compiled α :=
  .fail (place ++ ": " ++ message)

def require (holds : Bool) (place message : String) : Compiled Unit :=
  if holds then .ok () else defect place message

end Compiled

open Compiled

namespace Declarations

def find (types : Declarations) (name : String) : Option FactType :=
  types.find? (·.name = name)

def hasField (types : Declarations) (type field : String) : Bool :=
  match (find types type).bind (·.fields) with
  | some fields => fields.contains field
  | none => true

def require (types : Declarations) (place type : String) : Compiled FactType :=
  match find types type with
  | some declared => .ok declared
  | none => defect place ("undeclared fact type '" ++ type ++ "'")

def requireField (types : Declarations) (place type field : String) : Compiled Unit :=
  Compiled.require (hasField types type field) place
    ("undeclared field '" ++ field ++ "' on '" ++ type ++ "'")

/-- The declarations of a rule set; the second of one name is a defect. -/
def compile : List FactTypeSpec → Declarations → Compiled Declarations
  | [], types => .ok types
  | spec :: specs, types =>
    if (find types spec.name).isSome then
      Checked.apply ((Compiled.defect ("fact type '" ++ spec.name ++ "'") "declared twice").map
        fun (_ : Unit) types => types) (compile specs types)
    else compile specs (types ++ [⟨spec.name, spec.fields, spec.description⟩])

/-- The first declaration of each name, also when there are defects. -/
def ofSpecs (specs : List FactTypeSpec) : Declarations :=
  specs.foldl (fun types spec =>
    if (find types spec.name).isSome then types
    else types ++ [⟨spec.name, spec.fields, spec.description⟩]) []

end Declarations

def compileOperator (place spelling : String) : Compiled Operator :=
  match Operator.ofSpelling? spelling with
  | some op => .ok op
  | none => defect place ("unknown operator '" ++ spelling ++ "'")

def compileRef (types : Declarations) (bound : Bound) (place ref : String) : Compiled FieldRef :=
  let malformed : Compiled FieldRef := defect place ("expected 'var.field', got '" ++ ref ++ "'")
  match Text.cut? '.' ref with
  | none => malformed
  | some (var, field) =>
    if var == "" || field == "" then malformed
    else
      match bound.lookup var with
      | none => defect place ("reference to unbound variable '" ++ var ++ "'")
      | some type => (types.requireField place type field).map fun _ => ⟨var, field⟩

/-- The value of a membership test is kept as a tuple, so that it cannot be changed. -/
def testValue (op : Operator) (value : Value) : Value :=
  match op, value with
  | .isIn, .list items | .isIn, .set items | .notIn, .list items | .notIn, .set items =>
    .tuple items
  | _, value => value

/-- A check of one field. The field is looked at only if the operator is known. -/
def compileTest (types : Declarations) (place type : String) (check : CheckSpec) :
    Compiled FieldTest :=
  (compileOperator place check.operator).andThen fun op =>
    (types.requireField place type check.field).map fun _ =>
      ⟨check.field, op, testValue op check.value⟩

def compileTests (types : Declarations) (place type : String) (checks : List CheckSpec) :
    Compiled (List FieldTest) :=
  .all (checks.map (compileTest types place type))

/-- The correlations of a condition, in ascending order of their fields. -/
def compileKeys (types : Declarations) (bound : Bound) (place type : String)
    (correlations : List (String × String)) : Compiled (List KeyBinding) :=
  .all ((sortByKey correlations).map fun (field, ref) =>
    (compileRef types bound place ref).andThen fun ref =>
      (types.requireField place type field).map fun _ => ⟨field, ref⟩)

def compilePattern (types : Declarations) (bound : Bound) (place : String) (spec : PatternSpec) :
    Compiled Condition :=
  (types.require place spec.factType).andThen fun _ =>
    if (bound.lookup spec.var).isSome then
      defect place ("variable '" ++ spec.var ++ "' bound twice")
    else
      (compileTests types place spec.factType spec.tests).map fun tests =>
        .pattern ⟨spec.factType, tests, spec.predicate.map (·.toPredicate)⟩ spec.var

def compileSides (types : Declarations) (bound : Bound) (place : String) :
    Option String → Option String → Compiled (Option FieldRef × Option FieldRef)
  | some left, some right =>
    (fun l r => (some l, some r)) <$> compileRef types bound place left
      <*> compileRef types bound place right
  | _, _ => .ok (none, none)

def compileJoin (types : Declarations) (bound : Bound) (place : String) (spec : JoinSpec) :
    Compiled Condition :=
  -- A side that is missing hides all other defects of the join.
  if spec.predicate.isNone && (spec.left.isNone || spec.right.isNone) then
    defect place "join needs 'left' and 'right' or a 'where' predicate"
  else if spec.left.isNone != spec.right.isNone then
    defect place "join needs both 'left' and 'right'"
  else
    (fun sides op _ _ => .join {
      left := sides.1
      op
      right := sides.2
      predicate := spec.predicate.map (·.toPredicate)
      vars := spec.vars })
    <$> compileSides types bound place spec.left spec.right
    <*> compileOperator place spec.operator
    <*> .all (spec.vars.map fun var =>
          Compiled.require (bound.lookup var).isSome place
            ("join references unbound variable '" ++ var ++ "'"))
    <*> Compiled.require (spec.predicate.isNone || !spec.vars.isEmpty) place
          "join predicate needs 'variables'"

def compileNegation (types : Declarations) (bound : Bound) (place : String) (spec : NegationSpec) :
    Compiled Condition :=
  (types.require place spec.factType).andThen fun _ =>
    (fun tests keys =>
      .negation ⟨spec.factType, tests, spec.predicate.map (·.toPredicate)⟩ keys)
    <$> compileTests types place spec.factType spec.tests
    <*> compileKeys types bound place spec.factType spec.correlations

/-- The function of an aggregate. All but the count need a field. -/
def compileFunction (types : Declarations) (place : String) (spec : AggregateSpec) :
    Compiled AggregateFunction :=
  match AggregateFunction.ofName? (Text.lower spec.function) with
  | none => defect place ("unknown aggregate function '" ++ spec.function ++ "'")
  | some .count => .ok .count
  | some f =>
    let field := spec.field.getD ""
    if field == "" then defect place ("aggregate '" ++ f.name ++ "' needs a 'field'")
    else (types.requireField place spec.factType field).map fun _ => f

def compileAggregate (types : Declarations) (bound : Bound) (place : String)
    (spec : AggregateSpec) : Compiled Condition :=
  let shadows (name : String) := (bound.lookup name).isSome
  (types.require place spec.factType).andThen fun _ =>
    (fun function _ op tests keys =>
      .aggregate ⟨spec.factType, tests, spec.predicate.map (·.toPredicate)⟩ keys {
        function
        field := spec.field
        op
        threshold := spec.threshold
        bind := spec.bind })
    <$> compileFunction types place spec
    <*> Compiled.require (!spec.bind.any shadows) place
          ("aggregate binding '" ++ spec.bind.getD "" ++ "' shadows a variable")
    <*> compileOperator place spec.operator
    <*> compileTests types place spec.factType spec.tests
    <*> compileKeys types bound place spec.factType spec.correlations

def compileCondition (types : Declarations) (bound : Bound) (place : String) :
    ConditionSpec → Compiled Condition
  | .pattern spec => compilePattern types bound place spec
  | .join spec => compileJoin types bound place spec
  | .negation spec => compileNegation types bound place spec
  | .aggregate spec => compileAggregate types bound place spec

/--
The variables bound after a condition. A pattern of a declared type binds its variable even if its
tests have defects, so that these are not reported again wherever the variable is used.
-/
def Bound.extend (types : Declarations) (bound : Bound) : ConditionSpec → Bound
  | .pattern spec =>
    if (types.find spec.factType).isSome && (bound.lookup spec.var).isNone then
      bound ++ [(spec.var, spec.factType)]
    else bound
  | _ => bound

/-- The conditions of a rule from a position on, and the variables bound after them. -/
def compileConditions (types : Declarations) (rule : String) (position : Nat) (bound : Bound) :
    List ConditionSpec → Compiled (List Condition) × Bound
  | [] => (.ok [], bound)
  | spec :: specs =>
    let place := rule ++ ".conditions[" ++ Text.ofNat position ++ "]"
    let first := compileCondition types bound place spec
    let (rest, bound) :=
      compileConditions types rule (position + 1) (bound.extend types spec) specs
    (Checked.apply (first.map List.cons) rest, bound)

def compileAction (types : Declarations) (bound : Bound) (place : String) (spec : ActionSpec) :
    Compiled ActionStep :=
  match spec.kind with
  | .explain =>
    let template := spec.text.getD ""
    if template == "" then defect place "explain needs 'text'" else .ok (.explain template)
  | .insert =>
    let type := spec.factType.getD ""
    if type == "" then defect place "insert needs 'fact_type'"
    else
      (types.require place type).andThen fun declared =>
        let extra := declared.undeclared (spec.data.map (·.1))
        if extra.isEmpty then .ok (.insert type spec.data)
        else defect place
          ("undeclared fields for '" ++ type ++ "': " ++ Text.joinWith ", " extra)
  | kind =>
    match spec.target.bind fun var => (bound.lookup var).map (var, ·) with
    | none =>
      defect place
        (kind.name ++ " targets unbound variable '" ++ spec.target.getD "None" ++ "'")
    | some (var, type) =>
      if kind = .retract then .ok (.retract var)
      else
        let field := spec.field.getD ""
        if field == "" then defect place (kind.name ++ " needs 'field'")
        else
          (types.requireField place type field).map fun _ =>
            if kind = .set then .set var field spec.value
            else .append var field spec.value spec.unique

/-- The declarative actions of a rule, then its script. -/
def compileActions (types : Declarations) (bound : Bound) (spec : RuleSpec) :
    Compiled (List ActionStep) :=
  let steps := spec.actions.zipIdx.map fun (action, position) =>
    compileAction types bound (spec.name ++ ".actions[" ++ Text.ofNat position ++ "]") action
  (Checked.all steps).map fun steps =>
    match spec.script with
    | some callable => steps ++ [.script callable.toSteps]
    | none => steps

def compileRule (types : Declarations) (order : Int) (spec : RuleSpec) : Compiled Rule :=
  let (conditions, bound) := compileConditions types spec.name 0 [] spec.conditions
  (fun conditions action => {
    name := spec.name
    priority := spec.priority
    conditions
    action
    description := spec.description
    explanation := spec.explanation
    order
    refireOnChange := spec.refireOnChange })
  <$> conditions <*> compileActions types bound spec

/-- The rules of a rule set; the second of one name is a defect and is not looked at further. -/
def compileRules (types : Declarations) (order : Nat) (seen : List String) :
    List RuleSpec → Compiled (List Rule)
  | [] => .ok []
  | spec :: specs =>
    let first : Compiled Rule :=
      if seen.contains spec.name then defect spec.name "duplicate rule name"
      else compileRule types order spec
    Checked.apply (first.map List.cons) (compileRules types (order + 1) (spec.name :: seen) specs)

namespace RuleSetSpec

def compile (spec : RuleSetSpec) : Compiled RuleSet :=
  let types := Declarations.ofSpecs spec.factTypes
  (fun factTypes rules => {
    name := spec.name
    version := spec.version
    factTypes
    rules
    index := .build rules
    digest := spec.digest })
  <$> Declarations.compile spec.factTypes [] <*> compileRules types 0 [] spec.rules

def compileLog (spec : RuleSetSpec) : LogEntry :=
  match spec.compile with
  | .ok ruleSet =>
    .compiled spec.name ruleSet.rules.length ruleSet.factTypes.length ruleSet.digest
  | .failed problems => .rejected spec.name problems.length

def compile? (spec : RuleSetSpec) : Except Fault RuleSet :=
  match spec.compile with
  | .ok ruleSet => .ok ruleSet
  | .failed problems => .error (.malformedRuleSet problems)

/--
Read a rule set from a record; data of the wrong shape in it is a defect of the rule set. What is no
record is taken for a rule set that has been read already, and has no fact types.
-/
def ofSource : Source → Except Fault RuleSetSpec
  | .record fields =>
    match Reader.ruleSetSpec (.record fields) with
    | .ok spec => .ok spec
    | .failed problems => .error (.malformedRuleSet (problems.map Problem.summary))
  | source => .error (.noAttribute source.typeName "fact_types")

end RuleSetSpec
end ForwardChaining
