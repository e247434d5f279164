import ForwardChaining.Proofs.Session.Scope

/-!
This module contains which names a rule shows to its action and its templates: the variables of its patterns,
and the names of its aggregates. Variables are distinct, and no aggregate takes the name of a variable in
front of it, but a pattern may take the name of an aggregate in front of it, and then no template can be
filled in; and of two aggregates with one name the value of the last one is seen.
-/

namespace ForwardChaining

/-- The name under which an aggregate shows its value. -/
def Condition.bind? : Condition → Option String
  | .aggregate _ _ test => test.bind
  | _ => none

/-- The name under which a node shows the value of its memory. -/
def Node.bind? : Node → Option String
  | .aggregate memory => memory.test.bind
  | _ => none

theorem Node.bind?_of_implements {alphas : List AlphaMemory} {condition : Condition} {node : Node}
    (h : node.Implements alphas condition) : node.bind? = condition.bind? := by
  cases h using Node.Implements.cases <;> rfl

namespace Rule

/-- The names of the aggregates of a rule. -/
def binds (rule : Rule) : List String :=
  rule.conditions.filterMap (·.bind?)

/-- A pattern takes the name of an aggregate in front of it. -/
def Reuses (rule : Rule) : Prop :=
  ∃ before condition after name, rule.conditions = before ++ condition :: after
    ∧ condition.bind? = some name ∧ name ∈ after.filterMap (·.var?)

end Rule

/-! ### Compiled rules -/

section Compile

variable {types : Declarations} {bound : Bound}

theorem fresh_compileCondition {place : String} {spec : ConditionSpec} {condition : Condition}
    (h : compileCondition types bound place spec = .ok condition) {name : String}
    (hbind : condition.bind? = some name) : name ∉ bound.map (·.1) := by
  cases spec with
  | pattern spec =>
    have hvar := (compiledTo_pattern h).2.1
    cases condition <;> simp [Condition.var?] at hvar
    cases hbind
  | join spec =>
    simp only [compileCondition, compileJoin] at h
    split at h
    . simp at h
    split at h
    . simp at h
    simp only [Checked.seq_eq_ok, Checked.functorMap_eq_ok] at h
    obtain ⟨_, _, ⟨_, _, ⟨_, _, ⟨_, -, rfl⟩, -, rfl⟩, -, rfl⟩, -, rfl⟩ := h
    cases hbind
  | negation spec =>
    simp only [compileCondition, compileNegation, Checked.andThen_eq_ok, Checked.seq_eq_ok,
      Checked.functorMap_eq_ok] at h
    obtain ⟨_, -, _, _, ⟨_, -, rfl⟩, -, rfl⟩ := h
    cases hbind
  | aggregate spec =>
    simp only [compileCondition, compileAggregate, Checked.andThen_eq_ok, Checked.seq_eq_ok,
      Checked.functorMap_eq_ok] at h
    obtain ⟨_, -, _, _, ⟨_, _, ⟨_, _, ⟨_, _, ⟨_, -, rfl⟩, hshadows, rfl⟩, -, rfl⟩, -, rfl⟩, -,
      rfl⟩ := h
    have hname : spec.bind = some name := hbind
    have hnew := Compiled.require_eq_ok.mp hshadows
    rw [hname, Option.any_some, Bool.not_eq_true', ← Bool.not_eq_true] at hnew
    rwa [← isSome_lookup]

theorem fresh_compileConditions {rule : String} {position : Nat} {specs : List ConditionSpec}
    {conditions : List Condition}
    (h : (compileConditions types rule position bound specs).1 = .ok conditions)
    {before after : List Condition} {condition : Condition} {name : String}
    (hbind : condition.bind? = some name) (hsplit : conditions = before ++ condition :: after) :
    name ∉ bound.map (·.1) ++ before.filterMap (·.var?) := by
  -- the variables that are bound in front of the rest are those of the patterns passed so far
  induction specs generalizing position bound conditions before with
  | nil =>
    cases h
    simp at hsplit
  | cons spec specs ih =>
    simp only [compileConditions, Checked.apply_eq_ok, Checked.map_eq_ok] at h
    obtain ⟨-, rest, ⟨first, hfirst, rfl⟩, hrest, rfl⟩ := h
    cases before with
    | nil =>
      cases hsplit
      simpa using fresh_compileCondition hfirst hbind
    | cons _ before =>
      cases hsplit
      have hlater := ih hrest rfl
      rw [(compiledTo_compileCondition hfirst).2] at hlater
      rw [filterMap_cons_append, ← List.append_assoc]
      exact hlater

end Compile

theorem fresh_of_compile {spec : RuleSetSpec} {ruleSet : RuleSet} (h : spec.compile = .ok ruleSet)
    {rule : Rule} (hrule : rule ∈ ruleSet.rules) {before after : List Condition} {condition : Condition}
    {name : String} (hsplit : rule.conditions = before ++ condition :: after)
    (hbind : condition.bind? = some name) : name ∉ before.filterMap (·.var?) := by
  obtain ⟨types, rules, -, hrules, rfl⟩ := compile_eq_ok.mp h
  obtain ⟨order, spec, -, hspec⟩ := exists_of_compileRules hrules hrule
  simp only [compileRule, Checked.seq_eq_ok, Checked.functorMap_eq_ok] at hspec
  obtain ⟨_, _, ⟨conditions, hconditions, rfl⟩, -, rfl⟩ := hspec
  exact fresh_compileConditions hconditions hbind hsplit

theorem Rule.reuses_iff {rule : Rule}
    (h : ∀ (before after : List Condition) (condition : Condition) (name : String),
      rule.conditions = before ++ condition :: after → condition.bind? = some name →
        name ∉ before.filterMap (·.var?)) :
    rule.Reuses ↔ ∃ name ∈ rule.binds, name ∈ rule.vars := by
  constructor
  . rintro ⟨before, condition, after, name, hsplit, hbind, hvar⟩
    have hbinds : name ∈ rule.binds :=
      List.mem_filterMap.mpr ⟨condition, by simp [hsplit], hbind⟩
    obtain ⟨pattern, hpattern, heq⟩ := List.mem_filterMap.mp hvar
    exact ⟨name, hbinds, List.mem_filterMap.mpr ⟨pattern, by simp [hsplit, hpattern], heq⟩⟩
  . rintro ⟨name, hbinds, hvars⟩
    obtain ⟨condition, hcondition, hbind⟩ := List.mem_filterMap.mp hbinds
    obtain ⟨before, after, hsplit⟩ := List.append_of_mem hcondition
    have hnone : condition.var? = none := by
      cases condition <;> first | rfl | cases hbind
    refine ⟨before, condition, after, name, hsplit, hbind, ?_⟩
    rw [vars, hsplit, List.filterMap_append, List.filterMap_cons_none hnone,
      List.mem_append] at hvars
    exact hvars.resolve_left (h before after condition name hsplit hbind)

/-! ### Values -/

theorem forall₂_split {R : α → β → Prop} {before after : List α} {a : α} {bs : List β}
    (h : List.Forall₂ R (before ++ a :: after) bs) : ∃ front b back, bs = front ++ b :: back
      ∧ front.length = before.length ∧ R a b ∧ List.Forall₂ R after back := by
  induction before generalizing bs with
  | nil =>
    cases h with
    | cons hfirst hrest => exact ⟨[], _, _, rfl, rfl, hfirst, hrest⟩
  | cons first before ih =>
    cases h with
    | cons _ hrest =>
      obtain ⟨front, b, back, rfl, hlength, hat, hback⟩ := ih hrest
      exact ⟨_ :: front, b, back, rfl, by simp [hlength], hat, hback⟩

namespace Fields

theorem lookup_put (fields : Fields) (key : String) (x : Value) (name : String) :
    (fields.map fun (k, v) => if k == key then (k, x) else (k, v)).lookup name
      = (fields.lookup name).map fun v => if name = key then x else v := by
  induction fields with
  | nil => rfl
  | cons field fields ih =>
    obtain ⟨k, v⟩ := field
    have hfirst : (if k == key then (k, x) else (k, v)) = (k, if k = key then x else v) := by
      by_cases hkey : k = key <;> simp [hkey]
    rw [List.map_cons, List.lookup_cons]
    dsimp only
    rw [hfirst, List.lookup_cons]
    by_cases hname : name = k
    . simp [hname]
    . rw [beq_false_of_ne hname]
      exact ih

theorem lookup_set (fields : Fields) (key : String) (x : Value) (name : String) :
    (fields.set key x).lookup name = if name = key then some x else fields.lookup name := by
  have hany : fields.any (·.1 == key) = true ↔ (fields.lookup key).isSome := by
    rw [isSome_lookup, List.any_eq_true, List.mem_map]
    simp
  unfold set
  split
  . next hold =>
    rw [lookup_put]
    split
    . next heq =>
      obtain ⟨old, hlookup⟩ := Option.isSome_iff_exists.mp (hany.mp hold)
      rw [heq, hlookup, Option.map_some]
    . exact Option.map_id'
  . next hnew =>
    rw [hany, Option.not_isSome_iff_eq_none] at hnew
    rw [List.lookup_append, List.lookup_cons]
    by_cases hname : name = key
    . simp [hname, hnew]
    . simp [hname, beq_false_of_ne hname]

theorem mem_set {fields : Fields} {key : String} {x : Value} {name : String} :
    name ∈ (fields.set key x).map (·.1) ↔ name = key ∨ name ∈ fields.map (·.1) := by
  rw [← isSome_lookup, lookup_set, ← isSome_lookup]
  split <;> simp_all

end Fields

namespace Network

variable {n : Nat} {bindings : Bindings} {values result : Fields} {stages : List Stage}

theorem valuesOf_cons {stage : Stage} (h : valuesOf n bindings values (stage :: stages) = .ok result) :
    (stage.node.bind? = none ∧ valuesOf n bindings values stages = .ok result)
      ∨ ∃ memory name key x, stage.node = .aggregate memory ∧ memory.test.bind = some name
        ∧ bindingKey memory.keys bindings = .ok key ∧ memory.value n key = .ok x
        ∧ valuesOf (n + 1) bindings (values.set name x) stages = .ok result := by
  unfold valuesOf at h
  split at h
  . next memory hnode =>
    split at h
    . next name hname =>
      simp only [doBind_eq_ok] at h
      obtain ⟨key, hkey, x, hx, hrest⟩ := h
      exact .inr ⟨memory, name, key, x, hnode, hname, hkey, hx, hrest⟩
    . next hname => exact .inl ⟨by rw [hnode]; exact hname, h⟩
  . next hnode =>
    left
    refine ⟨?_, h⟩
    cases hkind : stage.node with
    | aggregate memory => exact absurd hkind (hnode memory)
    | _ => rfl

theorem lookup_valuesOf_of_not_mem (h : valuesOf n bindings values stages = .ok result) {name : String}
    (hname : name ∉ stages.filterMap (·.node.bind?)) : result.lookup name = values.lookup name := by
  induction stages generalizing n values with
  | nil => rw [Except.ok.inj h]
  | cons stage stages ih =>
    rcases valuesOf_cons h with ⟨hbind, hrest⟩ | ⟨memory, other, key, x, hnode, hother, -, -, hrest⟩
    . simp only [List.filterMap_cons, hbind] at hname
      exact ih hrest hname
    . have hbind : stage.node.bind? = some other := by rw [hnode]; exact hother
      simp only [List.filterMap_cons, hbind, List.mem_cons, not_or] at hname
      rw [ih hrest hname.2, Fields.lookup_set, if_neg hname.1]

/-- Under the name of an aggregate its value is found, unless a later one takes the name. -/
theorem lookup_valuesOf {before after : List Stage} {stage : Stage} {memory : AggregateMemory}
    {name : String} (hnode : stage.node = .aggregate memory) (hname : memory.test.bind = some name)
    (hlast : name ∉ after.filterMap (·.node.bind?))
    (h : valuesOf n bindings values (before ++ stage :: after) = .ok result) :
    ∃ m key x, bindingKey memory.keys bindings = .ok key ∧ memory.value m key = .ok x
      ∧ result.lookup name = some x := by
  induction before generalizing n values with
  | nil =>
    rcases valuesOf_cons h with ⟨hbind, -⟩ | ⟨memory', name', key, x, hnode', hname', hkey, hx, hrest⟩
    . rw [hnode] at hbind
      exact absurd (hname.symm.trans hbind) (by simp)
    . cases hnode.symm.trans hnode'
      cases hname.symm.trans hname'
      refine ⟨n, key, x, hkey, hx, ?_⟩
      rw [lookup_valuesOf_of_not_mem hrest hlast, Fields.lookup_set, if_pos rfl]
  | cons first before ih =>
    rcases valuesOf_cons h with ⟨-, hrest⟩ | ⟨_, _, _, _, -, -, -, -, hrest⟩ <;>
      exact ih hrest

theorem mem_valuesOf (h : valuesOf n bindings values stages = .ok result) {name : String} :
    name ∈ result.map (·.1) ↔ name ∈ values.map (·.1) ∨ name ∈ stages.filterMap (·.node.bind?) := by
  induction stages generalizing n values with
  | nil =>
    rw [Except.ok.inj h]
    simp
  | cons stage stages ih =>
    rcases valuesOf_cons h with ⟨hbind, hrest⟩ | ⟨memory, other, key, x, hnode, hother, -, -, hrest⟩
    . simp only [List.filterMap_cons, hbind]
      exact ih hrest
    . have hbind : stage.node.bind? = some other := by rw [hnode]; exact hother
      simp only [List.filterMap_cons, hbind, List.mem_cons]
      rw [ih hrest, Fields.mem_set]
      tauto

theorem binds_of_implements {alphas : List AlphaMemory} {conditions : List Condition}
    (h : List.Forall₂ (fun c s => s.node.Implements alphas c) conditions stages) :
    stages.filterMap (·.node.bind?) = conditions.filterMap (·.bind?) := by
  induction h with
  | nil => rfl
  | cons hfirst _ ih => simp only [List.filterMap_cons, Node.bind?_of_implements hfirst, ih]

/-- The value of an aggregate is found under its name, unless an aggregate behind it takes the name. -/
theorem lookUp_of_implements {alphas : List AlphaMemory} {before after : List Condition}
    {filter : FactFilter} {keys : List KeyBinding} {test : AggregateTest}
    (himplements : List.Forall₂ (fun c s => s.node.Implements alphas c)
      (before ++ .aggregate filter keys test :: after) stages) {name : String}
    (hname : test.bind = some name) (hlast : name ∉ after.filterMap (·.bind?))
    (h : valuesOf n bindings values stages = .ok result) :
    ∃ tallied m key x, (stages[before.length]?.map (·.node)) = some (.aggregate tallied)
      ∧ bindingKey keys bindings = .ok key ∧ tallied.value m key = .ok x
      ∧ lookUp result (.text name) = .ok x := by
  obtain ⟨front, stage, back, rfl, hlength, hat, hback⟩ := forall₂_split himplements
  rw [← binds_of_implements hback] at hlast
  cases hnode : stage.node with
  | aggregate tallied =>
    rw [hnode] at hat
    obtain ⟨-, rfl, rfl⟩ := hat
    obtain ⟨m, key, x, hkey, hx, hlookup⟩ := lookup_valuesOf hnode hname hlast h
    refine ⟨tallied, m, key, x, ?_, hkey, hx, lookUp_text hlookup⟩
    rw [← hlength]
    simp [hnode]
  | _ =>
    rw [hnode] at hat
    exact False.elim hat

end Network

namespace Firing

variable {σ : Type}

/-- A template is filled in from all facts and values, or cannot be because two of them share a name. -/
theorem subjects_cases (firing : Firing σ) :
    (∃ name ∈ firing.values.map (·.1), name ∈ firing.bindings.map (·.1)
        ∧ firing.subjects = .error (.repeatedName "str.format" name))
      ∨ ((∀ name ∈ firing.values.map (·.1), name ∉ firing.bindings.map (·.1))
        ∧ firing.subjects = .ok (firing.bindings.map (fun (var, f) => (var, .fact f))
          ++ firing.values.map fun (name, x) => (name, .value x))) := by
  unfold subjects
  split
  . next name x hfind =>
    left
    have hlookup := List.find?_some hfind
    have hmem := List.mem_of_find?_eq_some hfind
    exact ⟨name, List.mem_map.mpr ⟨_, hmem, rfl⟩, isSome_lookup.mp hlookup, rfl⟩
  . next hnone =>
    right
    refine ⟨?_, rfl⟩
    rw [List.find?_eq_none] at hnone
    rw [List.forall_mem_map]
    intro field hfield hbound
    exact hnone field hfield (isSome_lookup.mpr hbound)

theorem templates_iff {firing : Firing σ} {clash : Prop}
    (h : clash ↔ ∃ name ∈ firing.values.map (·.1), name ∈ firing.bindings.map (·.1)) :
    (clash → ∃ name, ∀ template,
        firing.format (.text template) = .error (.repeatedName "str.format" name))
      ∧ (¬ clash → firing.subjects = .ok (firing.bindings.map (fun (var, f) => (var, .fact f))
        ++ firing.values.map fun (name, x) => (name, .value x))) := by
  rcases firing.subjects_cases with ⟨name, hvalue, hbound, hfails⟩ | ⟨hapart, hfilled⟩
  . refine ⟨fun _ => ⟨name, fun template => ?_⟩, fun hclear => ?_⟩
    . simp only [format, hfails]
      rfl
    . exact absurd (h.mpr ⟨name, hvalue, hbound⟩) hclear
  . refine ⟨fun hclash => ?_, fun _ => hfilled⟩
    obtain ⟨name, hvalue, hbound⟩ := h.mp hclash
    exact absurd hbound (hapart name hvalue)

end Firing

namespace Session

variable {ruleSet : RuleSet}

theorem values_of_firingOf {session : Session} {a : Activation} {firing : Firing}
    (h : session.firingOf a = .ok firing) {memory : RuleMemory}
    (hmemory : session.network.memory? a.rule.name = some memory) :
    Network.valuesOf session.serial firing.bindings [] memory.stages = .ok firing.values := by
  have hbindings := bindings_of_firingOf h
  unfold firingOf Network.aggregateValues at h
  simp only [doBind_eq_ok] at h
  obtain ⟨bindings, hfound, values, ⟨bindings', hfound', hvalues⟩, heq⟩ := h
  rw [hmemory] at hvalues
  obtain rfl := Except.ok.inj (hfound.symm.trans hfound')
  rw [← Except.ok.inj heq]
  exact hvalues

section Names

variable {spec : RuleSetSpec} (hcompile : spec.compile = .ok ruleSet)

include hcompile

/-- What a firing of a selected activation shows: the variables of its rule, and the values of its stages. -/
theorem shows_of_select {fired : List Activation} {session next : Session} {a : Activation}
    {firing : Firing} (h : History ruleSet fired session) (hselect : session.select = (next, some a))
    (hfiring : next.beginCycle.firingOf a = .ok firing) :
    a.rule ∈ ruleSet.rules ∧ ∃ memory, next.network.memory? a.rule.name = some memory
      ∧ List.Forall₂ (fun c s => s.node.Implements next.network.working.alphas c) a.rule.conditions
        memory.stages
      ∧ firing.bindings.map (·.1) = a.rule.vars
      ∧ Network.valuesOf next.beginCycle.serial firing.bindings [] memory.stages = .ok firing.values := by
  have hmem := h.rule_of_select (wellFormed_of_compile hcompile) hselect
  obtain ⟨memory, hmemory, hrule, -⟩ := memory_of_select hcompile h hselect
  have himplements := ((h.selected hselect).scoped hcompile).1.implements a.rule.name memory hmemory
  rw [hrule] at himplements
  have hfit := (firingOf_select hcompile h hselect).2 firing hfiring
  exact ⟨hmem, memory, hmemory, himplements, hfit.map_fst.trans a.rule.map_bound,
    values_of_firingOf hfiring hmemory⟩

/--
In a compiled rule the variables are distinct, and no aggregate takes the name of a variable in front of it.
So when the rule fires, all its templates fail because of a repeated name if and only if a pattern takes the
name of an aggregate in front of it, and are filled in from all facts and values otherwise. The value of an
aggregate is found under its name unless an aggregate behind it takes the same name.
-/
theorem names_of_rules :
    (∀ rule ∈ ruleSet.rules, rule.vars.Nodup
      ∧ ∀ (before after : List Condition) (condition : Condition) (name : String),
        rule.conditions = before ++ condition :: after → condition.bind? = some name →
          name ∉ before.filterMap (·.var?))
    ∧ ∀ (fired : List Activation) (session next : Session) (a : Activation) (firing : Firing),
      History ruleSet fired session → session.select = (next, some a) →
      next.beginCycle.firingOf a = .ok firing →
      (a.rule.Reuses → ∃ name, ∀ template,
        firing.format (.text template) = .error (.repeatedName "str.format" name))
      ∧ (¬ a.rule.Reuses → firing.subjects = .ok
        (firing.bindings.map (fun (var, f) => (var, .fact f))
          ++ firing.values.map fun (name, x) => (name, .value x)))
      ∧ ∃ memory, next.network.memory? a.rule.name = some memory
        ∧ ∀ (before after : List Condition) (filter : FactFilter) (keys : List KeyBinding)
          (test : AggregateTest) (name : String),
          a.rule.conditions = before ++ .aggregate filter keys test :: after → test.bind = some name →
          name ∉ after.filterMap (·.bind?) →
          ∃ tallied n key x, (memory.stages[before.length]?.map (·.node)) = some (.aggregate tallied)
            ∧ bindingKey keys firing.bindings = .ok key ∧ tallied.value n key = .ok x
            ∧ lookUp firing.values (.text name) = .ok x := by
  have hfresh : ∀ rule ∈ ruleSet.rules, ∀ (before after : List Condition) (condition : Condition)
      (name : String), rule.conditions = before ++ condition :: after → condition.bind? = some name →
        name ∉ before.filterMap (·.var?) :=
    fun rule hrule _ _ _ _ => fresh_of_compile hcompile hrule
  obtain ⟨-, hrules⟩ := scoped_of_compile hcompile
  refine ⟨?_, ?_⟩
  . intro rule hrule
    exact ⟨rule.map_bound ▸ (hrules rule hrule).distinct, hfresh rule hrule⟩
  intro fired session next a firing h hselect hfiring
  obtain ⟨hmem, memory, hmemory, himplements, hvars, hvalues⟩ :=
    shows_of_select hcompile h hselect hfiring
  -- the values may repeat no variable: among themselves they do not clash, the last one wins
  have hclash : a.rule.Reuses
      ↔ ∃ name ∈ firing.values.map (·.1), name ∈ firing.bindings.map (·.1) := by
    rw [Rule.reuses_iff (hfresh a.rule hmem), hvars]
    simp [Network.mem_valuesOf hvalues, Network.binds_of_implements himplements, Rule.binds]
  obtain ⟨hfails, hfilled⟩ := Firing.templates_iff hclash
  refine ⟨hfails, hfilled, memory, hmemory, ?_⟩
  intro before after filter keys test name hsplit hname hlast
  rw [hsplit] at himplements
  exact Network.lookUp_of_implements himplements hname hlast hvalues

end Names

/-! ### A rule that uses a name twice -/

/-- The orders are counted under the name of the variable that stands for one of them. -/
def tallySpec : RuleSetSpec where
  factTypes := [{ name := "order" }]
  rules := [{
    name := "tally"
    conditions := [
      .aggregate {
        factType := "order", function := "count", operator := ">=", threshold := .int 1, bind := some "n" },
      .pattern { var := "n", factType := "order" }]
    explanation := some "one of {n}" }]

def tallyRule : Rule where
  name := "tally"
  conditions := [
    .aggregate { type := "order" } [] { op := .gte, threshold := .int 1, bind := some "n" },
    .pattern { type := "order" } "n"]
  explanation := some "one of {n}"

def tallyRuleSet (digest : String) : RuleSet where
  factTypes := [{ name := "order" }]
  rules := [tallyRule]
  index := .build [tallyRule]
  digest

theorem compile_tallySpec : tallySpec.compile = .ok (tallyRuleSet tallySpec.digest) :=
  compile_eq_ok.mpr ⟨_, _, rfl, by cbv, rfl⟩

/-- The session with an order. -/
def tallySession (digest : String) : Session where
  id := "s"
  ruleSet := tallyRuleSet digest
  store := (({
    table := { declared := some (tallyRuleSet digest).factTypes }
    listeners := [Network.listener]
    world := (Network.ofRuleSet (tallyRuleSet digest)).1 } : Store Network).apply
      (.insert (.text "order") (.record []))).1
  cycleLimit := .int 1000

theorem history_tallySession :
    History (tallyRuleSet tallySpec.digest) [] (tallySession tallySpec.digest) :=
  (History.created (ofRuleSet_default (wellFormed_of_compile compile_tallySpec) "s")).mutated
    (.insert (.text "order") (.record []))

/-- The rule compiles, but it has one name for two things, and it cannot be explained when it fires. -/
theorem name_used_twice : tallySpec.compile = .ok (tallyRuleSet tallySpec.digest)
    ∧ (∃ rule ∈ (tallyRuleSet tallySpec.digest).rules, ¬ (rule.vars ++ rule.binds).Nodup)
    ∧ History (tallyRuleSet tallySpec.digest) [] (tallySession tallySpec.digest)
    ∧ (tallySession tallySpec.digest).run.1.trace.map (fun entry => (entry.rule, entry.status, entry.error))
      = [("tally", .failed, some "str.format() got multiple values for keyword argument 'n'")] := by
  refine ⟨compile_tallySpec, ⟨tallyRule, by simp [tallyRuleSet], by decide⟩, history_tallySession, ?_⟩
  decide +kernel

/-- No template can be filled in when the rule fires. -/
theorem names_of_rules_tally : ∃ next a firing,
    (tallySession tallySpec.digest).select = (next, some a) ∧ a.rule = tallyRule
      ∧ next.beginCycle.firingOf a = .ok firing
      ∧ ∃ name, ∀ template, firing.format (.text template) = .error (.repeatedName "str.format" name) := by
  have hfires : ((tallySession tallySpec.digest).select.2.bind fun a =>
      ((tallySession tallySpec.digest).select.1.beginCycle.firingOf a).toOption.map fun _ => ())
        = some () := by
    decide +kernel
  obtain ⟨next, a, firing, hselect, hfiring, -⟩ := exists_observed hfires
  have hrule : a.rule = tallyRule := List.mem_singleton.mp
    (history_tallySession.rule_of_select (wellFormed_of_compile compile_tallySpec) hselect)
  have hnames := (names_of_rules compile_tallySpec).2 [] (tallySession tallySpec.digest) next a firing
    history_tallySession hselect hfiring
  have hreuses : a.rule.Reuses := by
    rw [hrule]
    exact ⟨[], _, _, "n", rfl, rfl, by decide⟩
  exact ⟨next, a, firing, hselect, hrule, hfiring, hnames.1 hreuses⟩

end Session
end ForwardChaining
