import ForwardChaining.Rule.Basic

/-!
This module contains the type index of a rule set: for every fact type, the rules that refer to it and
the positions of the conditions that do, so that a change of a fact touches only those.
-/

namespace ForwardChaining

-- zero is that of the core library, also in the presence of others
attribute [local instance (high)] Zero.ofOfNat0

/-- The rules and the condition positions under each fact type. -/
structure TypeIndex where
  rules : List (String × List String) := []
  positions : List (String × List (String × Nat)) := []
deriving Repr, Inhabited, DecidableEq

namespace TypeIndex

def entries (type : String) (table : List (String × List α)) : List α :=
  (table.lookup type).getD []

/-- Append an entry under a fact type; a new type goes to the end. -/
def append (type : String) (entry : α) : List (String × List α) → List (String × List α)
  | [] => [(type, [entry])]
  | (t, es) :: table =>
    if t = type then (t, es ++ [entry]) :: table else (t, es) :: append type entry table

/-- Names of the rules that refer to a type, in the order in which they were added. -/
def lookup (index : TypeIndex) (type : String) : List String :=
  entries type index.rules

def positionsOf (index : TypeIndex) (type : String) : List (String × Nat) :=
  entries type index.positions

def keys (index : TypeIndex) : List String :=
  index.rules.map (·.1)

/-- Add the conditions of a rule from a position on, and tell under which types the rule is new. -/
def addConditions (name : String) (index : TypeIndex) (position : Nat) :
    List Condition → TypeIndex × List String
  | [] => (index, [])
  | condition :: conditions =>
    match condition.filter? with
    | none => addConditions name index (position + 1) conditions
    | some filter =>
      let positions := append filter.type (name, position) index.positions
      if (index.lookup filter.type).contains name then
        addConditions name { index with positions } (position + 1) conditions
      else
        let rules := append filter.type name index.rules
        let (index, added) := addConditions name { rules, positions } (position + 1) conditions
        (index, filter.type :: added)

/-- Add a rule, and tell under which types it is new. -/
def add (index : TypeIndex) (rule : Rule) : TypeIndex × List String :=
  addConditions rule.name index 0 rule.conditions

def clear (index : TypeIndex) : TypeIndex :=
  { index with rules := [], positions := [] }

/-- Index some rules in an index. Whatever was in it before is forgotten. -/
def rebuild (index : TypeIndex) (rules : List Rule) : TypeIndex :=
  rules.foldl (fun index rule => (index.add rule).1) index.clear

def build (rules : List Rule) : TypeIndex :=
  rebuild {} rules

/-- How many indexed conditions are of each kind. -/
structure KindCounts where
  pattern : Nat := 0
  negation : Nat := 0
  aggregate : Nat := 0
deriving Repr, DecidableEq

namespace KindCounts

def add (counts : KindCounts) : Condition → KindCounts
  | .pattern .. => { counts with pattern := counts.pattern + 1 }
  | .negation .. => { counts with negation := counts.negation + 1 }
  | .aggregate .. => { counts with aggregate := counts.aggregate + 1 }
  | .join _ => counts

/-- The counts that are not zero, by the name of the kind. -/
def toFields (counts : KindCounts) : Fields :=
  ([("pattern", counts.pattern), ("not", counts.negation), ("aggregate", counts.aggregate)].filter
    (·.2 != 0)).map fun (name, n) => (name, .int (n : Nat))

end KindCounts

/-- The rule of a name; of several, the last. -/
def ruleNamed (name : String) (rules : List Rule) : Option Rule :=
  rules.reverse.find? (·.name = name)

/-- The conditions of some rules that the positions of the index refer to, counted by kind. -/
def kindCounts (index : TypeIndex) (rules : List Rule) : KindCounts :=
  let entries := index.positions.flatMap (·.2)
  entries.foldl (fun counts (name, position) =>
    match (ruleNamed name rules).bind (·.conditions[position]?) with
    | some condition => counts.add condition
    | none => counts) {}

/-- Figures on the index; the kinds of conditions are counted for the rules that are given. -/
def stats (index : TypeIndex) (rules : List Rule) : Fields :=
  if index.rules.isEmpty then
    [("total_types", .int 0), ("total_rules", .int 0), ("avg_rules_per_type", .int 0),
      ("max_rules_per_type", .int 0)]
  else
    let counts := index.rules.map (·.2.length)
    let names := (index.rules.flatMap (·.2)).eraseDups
    let kinds := (index.kindCounts rules).toFields
    [("total_types", .int index.rules.length), ("total_rules", .int names.length),
      ("avg_rules_per_type", .float (Binary64.ofFraction false counts.sum counts.length)),
      ("max_rules_per_type", .int (counts.foldl max 0 : Nat))]
      ++ (if kinds.isEmpty then [] else [("positions_by_kind", .record kinds)])

end TypeIndex

/-- A compiled rule set, which sessions share. -/
structure RuleSet where
  name : String := "default"
  version : String := "1.0"
  factTypes : List FactType := []
  rules : List Rule := []
  index : TypeIndex := {}
  /-- A hash of the content, for audits. -/
  digest : String := ""
deriving Repr, Inhabited

namespace RuleSet

def rule? (ruleSet : RuleSet) (name : String) : Option Rule :=
  TypeIndex.ruleNamed name ruleSet.rules

def label (ruleSet : RuleSet) : String :=
  "RuleSet(name=" ++ Text.quoted ruleSet.name ++ ", rules="
    ++ Text.ofNat ruleSet.rules.length ++ ", digest=" ++ Text.quoted ruleSet.digest ++ ")"

end RuleSet
end ForwardChaining
