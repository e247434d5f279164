import ForwardChaining.Network.Basic

/-!
This module contains matching from scratch: the tokens of a rule are computed from nothing but the
conditions and the facts. It needs no memory and is the measure of what the network maintains.
-/

namespace ForwardChaining

namespace Condition

def concerns (filter : FactFilter) (keys : List KeyBinding) (key : Key) (fact : Fact) :
    Logged Bool := do
  if ← filter.test fact then return Key.same (factKey keys fact) key else return false

def candidates (filter : FactFilter) (facts : List Fact) : List Fact :=
  facts.filter (·.type = filter.type)

/-- The token with a fact behind it, if the fact passes the filter and is not bound yet. -/
def bindNext (filter : FactFilter) (token : Token) (fact : Fact) : Logged (List Token) := do
  if token.contains fact.id then return []
  return if ← filter.test fact then [token ++ [fact.id]] else []

/-- The contribution of a fact to the group of a key. -/
def contributionOf (filter : FactFilter) (keys : List KeyBinding) (test : AggregateTest) (key : Key)
    (fact : Fact) : Logged (List Value) := do
  return if ← concerns filter keys key fact then (test.contribution fact).toList else []

/-- The tokens that a token becomes when it satisfies the condition. -/
def satisfy (facts : List Fact) (vars : List String) (condition : Condition) (token : Token) :
    Logged (List Token) := do
  let bindings ← ({ facts } : WorkingMemory).bindings vars token
  match condition with
  | .pattern filter _ => Logged.gather (bindNext filter token) (candidates filter facts)
  | .join across => return if ← across.test bindings then [token] else []
  | .negation filter keys =>
    let key ← bindingKey keys bindings
    let blocked ← Logged.exists? (concerns filter keys key) (candidates filter facts)
    return if blocked then [] else [token]
  | .aggregate filter keys test =>
    let key ← bindingKey keys bindings
    let contributions ←
      Logged.gather (contributionOf filter keys test key) (candidates filter facts)
    let value ← test.function.value 0 contributions
    return if ← test.satisfiedBy value then [token] else []

/-- The tokens that satisfy all conditions, from those that satisfied the ones before. -/
def satisfyAll (facts : List Fact) (vars : List String) (tokens : List Token) :
    List Condition → Logged (List Token)
  | [] => return tokens
  | condition :: conditions => do
    let tokens ← Logged.gather (condition.satisfy facts vars) tokens
    satisfyAll facts vars tokens conditions

end Condition

/-- The tokens that satisfy all conditions of a rule. -/
def Rule.tokens (facts : List Fact) (rule : Rule) : Logged (List Token) :=
  Condition.satisfyAll facts rule.vars [[]] rule.conditions

def Rule.matchesOf (facts : List Fact) (rules : List Rule) : Logged (List Match) :=
  Logged.gather (fun rule => do return (← rule.tokens facts).map (rule.name, ·)) rules

namespace Network

/-- All complete matches, computed from scratch over the facts by ascending identity. -/
def rescan (net : Network) : Logged (List Match) :=
  Rule.matchesOf (net.working.facts.mergeSort fun a b => a.id ≤ b.id) net.ruleSet.rules

/-- Matches in ascending order of rule names, then of tokens. -/
def sortMatches (found : List Match) : List Match :=
  found.mergeSort fun a b =>
    (compare a.1 b.1).then (SortKey.compareLists a.2 b.2) != .gt

/-- Are the maintained matches those that are found from scratch? -/
def consistent (net : Network) : Logged Bool := do
  return sortMatches (← net.rescan) == sortMatches net.completeMatches

/-- Has everything fired that matches, and is nothing missing? The rescan is done last. -/
def isFixpoint (net : Network) : Logged Bool := do
  if (← net.pending).isEmpty then net.consistent else return false

end Network
end ForwardChaining
