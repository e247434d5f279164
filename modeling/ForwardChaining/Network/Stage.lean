import ForwardChaining.Agenda
import ForwardChaining.Network.Memory

/-!
This module contains the stages of a rule. The stage of a condition holds the tokens that satisfy this
condition and all before it, so that a change only touches the tokens it can affect. Tokens that reach
a stage are pushed on through the stages behind it.
-/

namespace ForwardChaining

/-- The facts that rules are matched against, and the memories that patterns share. -/
structure WorkingMemory where
  facts : List Fact := []
  alphas : List AlphaMemory := []
deriving Repr, Inhabited

namespace WorkingMemory

def find (w : WorkingMemory) (id : Int) : Except Fault Fact :=
  match w.facts.find? (·.id = id) with
  | some fact => .ok fact
  | none => .error (.missingKey (.int id))

def bindings (w : WorkingMemory) : List String → Token → Except Fault Bindings
  | var :: vars, id :: token => do
    let fact ← w.find id
    return (var, fact) :: (← w.bindings vars token)
  | _, _ => .ok []

/-- Put a fact in, in the place of an older snapshot if there is one. -/
def put (w : WorkingMemory) (fact : Fact) : WorkingMemory :=
  if w.facts.any (·.id = fact.id) then
    { w with facts := w.facts.map fun old => if old.id = fact.id then fact else old }
  else { w with facts := w.facts ++ [fact] }

/-- The members of a shared memory. -/
def members (w : WorkingMemory) (alpha : Nat) : List Int :=
  match w.alphas[alpha]? with
  | some memory => memory.members
  | none => []

end WorkingMemory

/-- What a condition tests, with the memory that it needs for that. -/
inductive Node where
  /-- The members of a shared memory, each of which is bound. -/
  | pattern (alpha : Nat)
  | join (join : JoinCondition)
  | negation (memory : NegationMemory)
  | aggregate (memory : AggregateMemory)
deriving Repr, Inhabited

namespace Node

def isPattern : Node → Bool
  | .pattern _ => true
  | _ => false

/-- The tokens that a token becomes when it is bound to one more fact, which it does not hold yet. -/
def extensions (token : Token) (ids : List Int) : List Token :=
  (ids.filter (!token.contains ·)).map fun id => token ++ [id]

/-- The tokens that come out of a condition for a token that goes in. -/
def advance (w : WorkingMemory) (vars : List String) (token : Token) : Node → Logged (List Token)
  | .pattern alpha => return extensions token (w.members alpha)
  | .join test => do
    let bindings ← w.bindings vars token
    return if ← test.test bindings then [token] else []
  | .negation memory => do
    let bindings ← w.bindings vars token
    let key ← bindingKey memory.keys bindings
    return if memory.blocked key then [] else [token]
  | .aggregate memory => do
    let bindings ← w.bindings vars token
    let key ← bindingKey memory.keys bindings
    return if ← memory.passes key then [token] else []

/-- Count a fact, and report the key whose state changes. -/
def add (fact : Fact) : Node → Logged (Node × Option Key)
  | .negation memory => do
    let (memory, key) ← memory.add fact
    return (.negation memory, key)
  | .aggregate memory => do
    let (memory, key) ← memory.add fact
    return (.aggregate memory, key)
  | node => return (node, none)

/-- Uncount a fact, and report the key whose state changes. -/
def remove (id : Int) : Node → Node × Option Key
  | .negation memory =>
    let (memory, key) := memory.remove id
    (.negation memory, key)
  | .aggregate memory =>
    let (memory, key) := memory.remove id
    (.aggregate memory, key)
  | node => (node, none)

def keys : Node → List KeyBinding
  | .negation memory => memory.keys
  | .aggregate memory => memory.keys
  | _ => []

end Node

/-- A condition, and the tokens that satisfy it and all conditions before it. -/
structure Stage where
  node : Node
  tokens : List Token := []
deriving Repr, Inhabited

namespace Stage

/-- Take tokens in. The second part holds those that were not there before. -/
def merge (stage : Stage) (tokens : List Token) : Stage × List Token :=
  let fresh := (tokens.filter (!stage.tokens.contains ·)).eraseDups
  ({ stage with tokens := stage.tokens ++ fresh }, fresh)

/-- Push tokens through stages. The result are the tokens that are new behind the last one. -/
def push (w : WorkingMemory) (vars : List String) (tokens : List Token) :
    List Stage → List Stage × Logged (List Token)
  | [] => ([], .result tokens)
  | stage :: stages =>
    let produced := Logged.gather (stage.node.advance w vars) tokens
    match produced.outcome with
    -- What the stages before this one have taken in stays there.
    | .error fault => (stage :: stages, ⟨produced.log, .error fault⟩)
    | .ok next =>
      let (stage, fresh) := stage.merge next
      let (stages, complete) := push w vars fresh stages
      (stage :: stages, ⟨produced.log ++ complete.log, complete.outcome⟩)

/-- Take tokens in at a position, and push those that are new through the stages behind it. -/
def extend (w : WorkingMemory) (vars : List String) (tokens : List Token) :
    Nat → List Stage → List Stage × Logged (List Token)
  | _, [] => ([], .result [])
  | 0, stage :: stages =>
    let (stage, fresh) := stage.merge tokens
    let (stages, complete) := push w vars fresh stages
    (stage :: stages, complete)
  | position + 1, stage :: stages =>
    let (stages, complete) := extend w vars tokens position stages
    (stage :: stages, complete)

def drop (doomed : Token → Bool) : Nat → List Stage → List Stage
  | _, [] => []
  | 0, stages => stages.map fun stage => { stage with tokens := stage.tokens.filter (!doomed ·) }
  | position + 1, stage :: stages => stage :: drop doomed position stages

/-- The tokens that satisfy all conditions. Without conditions, the empty token does. -/
def complete (stages : List Stage) : List Token :=
  match stages.getLast? with
  | some stage => stage.tokens
  | none => [[]]

/-- The tokens that satisfy the conditions before a position. -/
def parents (position : Nat) (stages : List Stage) : List Token :=
  complete (stages.take position)

/-- The number of variables bound by the conditions up to a position. -/
def width (position : Nat) (stages : List Stage) : Nat :=
  ((stages.take (position + 1)).filter (·.node.isPattern)).length

end Stage

/-- A rule and its stages, one for each condition. -/
structure RuleMemory where
  rule : Rule
  stages : List Stage
deriving Repr, Inhabited
end ForwardChaining
