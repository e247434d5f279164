import ForwardChaining.Network.Stage
import ForwardChaining.Rule.TypeIndex

/-!
This module contains the matching network of a session. It keeps the matches of all rules while facts
change, and an agenda of the complete matches that have not fired yet. An update that fails leaves the
network in the state it had reached.
-/

namespace ForwardChaining

-- zero is that of the core library, also in the presence of others
attribute [local instance (high)] Zero.ofOfNat0

/-- What marks a match as fired: rule and token, and the versions if the rule fires again on changes. -/
structure RefractionKey where
  rule : String
  token : Token
  versions : Option (List Int)
deriving DecidableEq, Repr

/-- A complete match: the name of a rule and the token that satisfies it. -/
abbrev Match := String × Token

/-- A key whose state a change of a fact affects, at the position of a condition. -/
structure Disturbance where
  rule : String
  position : Nat
  key : Key
deriving Repr, Inhabited

structure Network where
  ruleSet : RuleSet := {}
  working : WorkingMemory := {}
  memories : List RuleMemory := []
  fired : List RefractionKey := []
  agenda : Agenda := {}
  journal : List LogEntry := []
  /-- The number of the next activation. -/
  serial : Nat := 0
deriving Repr, Inhabited

namespace Network

def record (net : Network) (entries : List LogEntry) : Network :=
  { net with journal := net.journal ++ entries }

def memory? (net : Network) (rule : String) : Option RuleMemory :=
  net.memories.find? (·.rule.name = rule)

def mapStages (net : Network) (rule : String) (f : List Stage → List Stage) : Network :=
  { net with memories := net.memories.map fun memory =>
      if memory.rule.name = rule then { memory with stages := f memory.stages } else memory }

def stage? (net : Network) (rule : String) (position : Nat) : Option Stage :=
  (net.memory? rule).bind (·.stages[position]?)

def setNode (net : Network) (rule : String) (position : Nat) (node : Node) : Network :=
  net.mapStages rule (·.modify position fun stage => { stage with node })

/-! ### Activations -/

def refractionKey (rule : Rule) (token : Token) (versions : List Int) : RefractionKey :=
  ⟨rule.name, token, if rule.refireOnChange then some versions else none⟩

def boundFacts (net : Network) (token : Token) : Except Fault (List Fact) :=
  token.mapM net.working.find

/-- Offer a complete match to the agenda, unless it has fired. -/
def activate (rule : Rule) (token : Token) (net : Network) : Update Network :=
  match net.boundFacts token with
  | .error fault => (net, some fault)
  | .ok facts =>
    let versions := facts.map (·.version)
    if net.fired.contains (refractionKey rule token versions) then (net, none)
    else
      let activation : Activation := {
        rule
        token
        recency := (facts.map (·.recency)).mergeSort fun a b => b ≤ a
        versions
        serial := net.serial }
      ({ net with agenda := net.agenda.offer activation, serial := net.serial + 1 }, none)

/-- Record that an activation fired, so that it is not offered again. -/
def markFired (net : Network) (activation : Activation) : Network :=
  let key := refractionKey activation.rule activation.token activation.versions
  if net.fired.contains key then net else { net with fired := key :: net.fired }

/-! ### Tokens -/

/-- Take tokens in at the stage of a condition, and activate what they complete. -/
def extend (rule : String) (position : Nat) (tokens : List Token) (net : Network) :
    Update Network :=
  match net.memory? rule with
  | none => (net, none)
  | some memory =>
    let (stages, complete) :=
      Stage.extend net.working memory.rule.vars tokens position memory.stages
    let net := (net.mapStages rule fun _ => stages).record complete.log
    match complete.outcome with
    | .error fault => (net, some fault)
    | .ok tokens => Update.each (activate memory.rule) tokens net

/-- Drop tokens from the stage of a condition on, and withdraw what they completed. -/
def drop (rule : String) (position : Nat) (doomed : Token → Bool) (net : Network) : Network :=
  match net.memory? rule with
  | none => net
  | some memory =>
    let gone := (Stage.complete memory.stages).filter doomed
    { net.mapStages rule (Stage.drop doomed position) with
      agenda := gone.foldl (fun agenda token => (agenda.withdraw (rule, token)).1) net.agenda }

def asksFor (net : Network) (vars : List String) (keys : List KeyBinding) (key : Key)
    (token : Token) : Except Fault Bool := do
  let bindings ← net.working.bindings vars token
  return Key.same (← bindingKey keys bindings) key

/-- The tokens that ask for a key and satisfy a condition now, and those that do not. -/
def verdicts (net : Network) (vars : List String) (node : Node) (key : Key) :
    List Token → Logged (List Token × List Token)
  | [] => return ([], [])
  | token :: tokens => do
    if ← net.asksFor vars node.keys key token then
      let passes := !(← node.advance net.working vars token).isEmpty
      let (admitted, rejected) ← net.verdicts vars node key tokens
      return if passes then (token :: admitted, rejected) else (admitted, token :: rejected)
    else net.verdicts vars node key tokens

/-- Test the tokens again that ask for a key whose state has changed. -/
def reevaluate (d : Disturbance) (net : Network) : Update Network :=
  match net.memory? d.rule, net.stage? d.rule d.position with
  | some memory, some stage =>
    let tested :=
      net.verdicts memory.rule.vars stage.node d.key (Stage.parents d.position memory.stages)
    let net := net.record tested.log
    match tested.outcome with
    | .error fault => (net, some fault)
    | .ok (passing, failing) =>
      -- Only tokens whose answer has changed move; the others are where they belong.
      let admitted := passing.filter (!stage.tokens.contains ·)
      let rejected := failing.filter stage.tokens.contains
      let width := Stage.width d.position memory.stages
      net.drop d.rule d.position (fun token => rejected.contains (token.take width))
        |>.extend d.rule d.position admitted
  | _, _ => (net, none)

/-! ### Changes of facts -/

/-- Take a fact into the shared memories. -/
def remember (fact : Fact) : List AlphaMemory → Logged (List AlphaMemory)
  | [] => return []
  | alpha :: alphas => do
    let alpha ← alpha.add fact
    let alphas ← remember fact alphas
    return alpha :: alphas

/-- Count a fact in the memories at some positions, and collect the keys that this affects. -/
def count (fact : Fact) : List (String × Nat) → Network → Network × Except Fault (List Disturbance)
  | [], net => (net, .ok [])
  | (rule, position) :: positions, net =>
    match net.stage? rule position with
    | none => count fact positions net
    | some stage =>
      let added := stage.node.add fact
      let net := net.record added.log
      match added.outcome with
      | .error fault => (net, .error fault)
      | .ok (node, key) =>
        match count fact positions (net.setNode rule position node) with
        | (net, .error fault) => (net, .error fault)
        | (net, .ok changed) =>
          (net, .ok ((key.toList.map fun key => ⟨rule, position, key⟩) ++ changed))

/-- Uncount a fact in the memories at some positions, and collect the keys that this affects. -/
def uncount (id : Int) : List (String × Nat) → Network → Network × List Disturbance
  | [], net => (net, [])
  | (rule, position) :: positions, net =>
    match net.stage? rule position with
    | none => uncount id positions net
    | some stage =>
      let (node, key) := stage.node.remove id
      let (net, changed) := uncount id positions (net.setNode rule position node)
      (net, (key.toList.map fun key => ⟨rule, position, key⟩) ++ changed)

/-- Bind a fact at the pattern at a position, if it stands there. -/
def seed (id : Int) (place : String × Nat) (net : Network) : Update Network :=
  match net.memory? place.1, net.stage? place.1 place.2 with
  | some memory, some ⟨.pattern alpha, _⟩ =>
    if (net.working.members alpha).contains id then
      let parents := (Stage.parents place.2 memory.stages).filter (!·.contains id)
      net.extend place.1 place.2 (parents.map (· ++ [id]))
    else (net, none)
  | _, _ => (net, none)

/-- The first pattern of each rule among some positions. -/
def firstPatterns (net : Network) : List (String × Nat) → List (String × Nat)
  | [] => []
  | (rule, position) :: positions =>
    let later := net.firstPatterns positions
    match net.stage? rule position with
    -- What a later pattern of the rule binds goes with the tokens it extends.
    | some ⟨.pattern _, _⟩ => (rule, position) :: later.filter (·.1 ≠ rule)
    | _ => later

def insert (fact : Fact) (net : Network) : Update Network :=
  let working := net.working.put fact
  let admitted := remember fact working.alphas
  let net := { net with working }.record admitted.log
  match admitted.outcome with
  | .error fault => (net, some fault)
  | .ok alphas =>
    let positions := net.ruleSet.index.positionsOf fact.type
    -- No token is built before all memories hold the fact.
    match count fact positions { net with working := { working with alphas } } with
    | (net, .error fault) => (net, some fault)
    | (net, .ok changed) =>
      (Update.each (seed fact.id) positions net).andThen (Update.each reevaluate changed)

def retract (fact : Fact) (net : Network) : Update Network :=
  let positions := net.ruleSet.index.positionsOf fact.type
  let net := { net with working.alphas := net.working.alphas.map (·.remove fact.id) }
  let (net, changed) := uncount fact.id positions net
  let net := (net.firstPatterns positions).foldl
    (fun net (rule, position) => net.drop rule position (·.contains fact.id)) net
  -- That the fact is missing shows only here, when the memories and the stages have changed already.
  if net.working.facts.any (·.id = fact.id) then
    let facts := net.working.facts.filter (·.id ≠ fact.id)
    Update.each reevaluate changed { net with working.facts := facts }
  else (net, some (.missingKey (.int fact.id)))

def onChange (change : Change) (net : Network) : Update Network :=
  match change with
  | .inserted fact => net.insert fact
  -- A fault while the old snapshot is taken away keeps the new one out.
  | .updated fact previous => (net.retract previous).andThen (insert fact)
  | .retracted fact => net.retract fact

/-! ### Construction -/

/-- The shared memory of a filter: the one that is there, or a new one behind the others. -/
def share (filter : FactFilter) (alphas : List AlphaMemory) : Nat × List AlphaMemory :=
  match alphas.findIdx? (·.filter.identity = filter.identity) with
  | some i => (i, alphas)
  | none => (alphas.length, alphas ++ [{ filter }])

def nodeOf (alphas : List AlphaMemory) : Condition → Node × List AlphaMemory
  | .pattern filter _ =>
    let (i, alphas) := share filter alphas
    (.pattern i, alphas)
  | .join condition => (.join condition, alphas)
  | .negation filter keys => (.negation { filter, keys }, alphas)
  | .aggregate filter keys test => (.aggregate { filter, keys, test }, alphas)

def stagesOf (alphas : List AlphaMemory) : List Condition → List Stage × List AlphaMemory
  | [] => ([], alphas)
  | condition :: conditions =>
    let (node, alphas) := nodeOf alphas condition
    let (stages, alphas) := stagesOf alphas conditions
    ({ node } :: stages, alphas)

def memoriesOf (alphas : List AlphaMemory) : List Rule → List RuleMemory × List AlphaMemory
  | [] => ([], alphas)
  | rule :: rules =>
    let (stages, alphas) := stagesOf alphas rule.conditions
    let (memories, alphas) := memoriesOf alphas rules
    ({ rule, stages } :: memories, alphas)

def start (rule : Rule) (net : Network) : Update Network :=
  match net.stage? rule.name 0 with
  | none => net.activate rule []
  | some stage =>
    let produced := stage.node.advance net.working rule.vars []
    let net := net.record produced.log
    match produced.outcome with
    | .error fault => (net, some fault)
    | .ok tokens => net.extend rule.name 0 tokens

/-- The network of a rule set without facts: what is satisfied without any is activated. -/
def ofRuleSet (ruleSet : RuleSet) : Update Network :=
  let (memories, alphas) := memoriesOf [] ruleSet.rules
  Update.each start ruleSet.rules { ruleSet, memories, working.alphas := alphas }

/-! ### Queries -/

def bindings (net : Network) (activation : Activation) : Except Fault Bindings :=
  net.working.bindings activation.rule.vars activation.token

/--
The values of the named aggregates among some conditions, added to those of the conditions before. A
name that occurs again keeps its place and takes the later value.
-/
def valuesOf (n : Nat) (bindings : Bindings) (values : Fields) : List Stage → Except Fault Fields
  | [] => .ok values
  | stage :: stages => do
    match stage.node with
    | .aggregate memory =>
      match memory.test.bind with
      | some name =>
        let value ← memory.value n (← bindingKey memory.keys bindings)
        valuesOf (n + 1) bindings (values.set name value) stages
      | none => valuesOf n bindings values stages
    | _ => valuesOf n bindings values stages

/--
The values of the named aggregates of an activation. NaNs that come out are numbered from `n` on.
-/
def aggregateValues (net : Network) (activation : Activation) (n : Nat := 0) :
    Except Fault Fields := do
  let bindings ← net.bindings activation
  match net.memory? activation.rule.name with
  | some memory => valuesOf n bindings [] memory.stages
  | none => return []

def completeMatches (net : Network) : List Match :=
  net.memories.flatMap fun memory =>
    (Stage.complete memory.stages).map fun token => (memory.rule.name, token)

def hasFired (net : Network) (rule : Rule) (token : Token) : Except Fault Bool := do
  let facts ← net.boundFacts token
  return net.fired.contains (refractionKey rule token (facts.map (·.version)))

/-- The complete matches of a rule that have not fired. -/
def pendingOf (net : Network) (rule : Rule) : List Token → Except Fault (List Match)
  | [] => .ok []
  | token :: tokens => do
    let fired ← net.hasFired rule token
    let others ← net.pendingOf rule tokens
    return if fired then others else (rule.name, token) :: others

/-- The complete matches that have not fired. -/
def pending (net : Network) : Except Fault (List Match) := do
  return (← net.memories.mapM fun memory =>
    net.pendingOf memory.rule (Stage.complete memory.stages)).flatten

def stats (net : Network) : Fields :=
  let index := net.ruleSet.index
  let total (sizes : List Nat) : Value := .int (sizes.sum : Nat)
  [("rules_by_type", .record (index.keys.map fun type => (type, .int (index.lookup type).length))),
    ("index", .record (index.stats net.ruleSet.rules)),
    ("facts", .int net.working.facts.length),
    ("rules", .int net.memories.length),
    ("alpha_memories", .int net.working.alphas.length),
    ("alpha_entries", total (net.working.alphas.map (·.members.length))),
    ("tokens", total (net.memories.map fun m => (m.stages.map (·.tokens.length)).sum)),
    ("complete_matches", total (net.memories.map fun m => (Stage.complete m.stages).length)),
    ("fired", .int net.fired.length)]

end Network
end ForwardChaining
