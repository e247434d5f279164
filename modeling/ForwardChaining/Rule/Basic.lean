import ForwardChaining.Rule.Condition
import ForwardChaining.Script.Step

/-!
This module contains compiled rules and their actions.
-/

namespace ForwardChaining

/-- A value of an action: written in the rule, or computed when the rule fires. -/
inductive Operand where
  | literal (value : Value)
  | computed (name : String) (e : Expr)
deriving Repr, Inhabited

/-- A declarative part of the action of a rule. -/
inductive ActionStep where
  /-- Put a value into a field of a bound fact. -/
  | set (target field : String) (value : Operand)
  /-- Append a value to the list in a field; with `unique`, unless it is in the list. -/
  | append (target field : String) (value : Operand) (unique : Bool)
  | insert (type : String) (data : List (String × Operand))
  | retract (target : String)
  /-- Append the text of a template to the explanation. -/
  | explain (template : String)
  | script (steps : List Step)
deriving Repr, Inhabited

structure Rule where
  name : String
  /-- Rules of higher priority fire first. -/
  priority : Int := 0
  conditions : List Condition := []
  action : List ActionStep := []
  description : Option String := none
  /-- The template that explains a firing. -/
  explanation : Option String := none
  /-- The place of the declaration, which breaks the last ties. -/
  order : Int := 0
  /-- Fire again when a bound fact was updated. -/
  refireOnChange : Bool := false
deriving Repr, Inhabited

namespace Rule

def specificity (rule : Rule) : Nat :=
  rule.conditions.length

/-- The variables of the patterns in order: the layout of a token. -/
def vars (rule : Rule) : List String :=
  rule.conditions.filterMap (·.var?)

/-- The fact types that the conditions refer to, in ascending order. -/
def factTypes (rule : Rule) : List String :=
  (rule.conditions.filterMap (·.filter?.map (·.type))).eraseDups.mergeSort
    fun a b => !decide (b < a)

/-- The number of variables bound by the conditions up to a position. -/
def width (rule : Rule) (position : Nat) : Nat :=
  ((rule.conditions.take (position + 1)).filterMap (·.var?)).length

end Rule
end ForwardChaining
