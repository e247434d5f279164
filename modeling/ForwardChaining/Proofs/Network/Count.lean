import ForwardChaining.Proofs.Network.Rescan
import ForwardChaining.Proofs.Network.Step

/-!
This module contains what counting and uncounting a fact does to the memories of all conditions: each
stays in step with the facts, and it answers differently only for the keys that are reported.
-/

namespace ForwardChaining

namespace Node

/-- The node after a fact was counted, and the key that is reported. -/
def counted (fact : Fact) (node : Node) : Node × Option Key :=
  match (node.add fact).outcome with
  | .ok found => found
  | .error _ => (node, none)

/-- No filter of the node can fail. -/
def Safe : Node → Prop
  | .negation memory => memory.filter.Safe
  | .aggregate memory => memory.filter.Safe
  | _ => True

/-- The node answers differently afterwards at most for the key that is reported. -/
def Follows : Node → Node → Option Key → Prop
  | .pattern alpha, .pattern alpha', _ => alpha' = alpha
  | .join across, .join across', _ => across' = across
  | .negation memory, .negation memory', reported =>
    memory'.keys = memory.keys ∧ memory.Follows memory' reported
  | .aggregate memory, .aggregate memory', reported =>
    memory'.keys = memory.keys ∧ memory'.test = memory.test ∧ memory.Follows memory' reported
  | _, _, _ => False

theorem outcome_add {node : Node} (hsafe : node.Safe) (fact : Fact) :
    (node.add fact).outcome = .ok (node.counted fact) := by
  have hok : ∃ found, (node.add fact).outcome = .ok found := by
    cases node with
    | pattern | join => exact ⟨_, rfl⟩
    | negation memory =>
      simp only [add, Logged.outcome_bind]
      simp only [NegationMemory.add, Logged.outcome_bind, FactFilter.outcome_test hsafe,
        Except.bind]
      cases memory.filter.admits fact <;> exact ⟨_, rfl⟩
    | aggregate memory =>
      simp only [add, Logged.outcome_bind, AggregateMemory.outcome_add hsafe, Except.bind]
      cases memory.entry fact <;> exact ⟨_, rfl⟩
  obtain ⟨found, hfound⟩ := hok
  unfold counted
  rw [hfound]

theorem counted_negation {memory : NegationMemory} {fact : Fact} {found : NegationMemory × Option Key}
    (h : (memory.add fact).outcome = .ok found) :
    (negation memory).counted fact = (.negation found.1, found.2) := by
  simp only [counted, add, Logged.outcome_bind, h, Except.bind, Logged.outcome_pure]

theorem counted_aggregate {memory : AggregateMemory} {fact : Fact}
    {found : AggregateMemory × Option Key} (h : (memory.add fact).outcome = .ok found) :
    (aggregate memory).counted fact = (.aggregate found.1, found.2) := by
  simp only [counted, add, Logged.outcome_bind, h, Except.bind, Logged.outcome_pure]

theorem tracks_counted {node : Node} {facts : List Fact} (h : node.Tracks facts)
    (hsafe : node.Safe) {fact : Fact} (hfresh : Unused fact.id facts) :
    (node.counted fact).1.Tracks (facts ++ [fact])
      ∧ node.Follows (node.counted fact).1 (node.counted fact).2 := by
  cases node with
  | pattern => exact ⟨trivial, rfl⟩
  | join => exact ⟨trivial, rfl⟩
  | negation memory =>
    obtain ⟨memory', reported, hok, -, hkeys, htracks, hfollows⟩ :=
      NegationMemory.tracks_add h hsafe hfresh
    rw [counted_negation hok]
    exact ⟨htracks, hkeys, hfollows⟩
  | aggregate memory =>
    rw [counted_aggregate (AggregateMemory.outcome_add hsafe fact)]
    cases hentry : memory.entry fact with
    | none => exact ⟨AggregateMemory.tracks_ignored h hentry, rfl, rfl, fun _ _ _ => rfl⟩
    | some found =>
      obtain ⟨key, x⟩ := found
      obtain ⟨htracks, hfollows⟩ := AggregateMemory.tracks_folded h hfresh hentry
      exact ⟨htracks, rfl, rfl, hfollows⟩

theorem implements_counted {alphas : List AlphaMemory} {condition : Condition} {node : Node}
    (h : node.Implements alphas condition) (hsafe : node.Safe) (fact : Fact) :
    (node.counted fact).1.Implements alphas condition := by
  cases h using Implements.cases with
  | pattern hmemory hidentity => exact ⟨_, hmemory, hidentity⟩
  | join => exact rfl
  | negation memory =>
    have hadd : (memory.add fact).outcome.map (fun found => (found.1.filter, found.1.keys))
        = .ok (memory.filter, memory.keys) := by
      simp only [NegationMemory.add, Logged.outcome_bind, FactFilter.outcome_test hsafe,
        Except.bind]
      cases memory.filter.admits fact <;> rfl
    simp only [map_eq_ok, Prod.mk.injEq] at hadd
    obtain ⟨found, hfound, hfilter, hkeys⟩ := hadd
    rw [counted_negation hfound]
    exact ⟨hfilter, hkeys⟩
  | aggregate memory =>
    rw [counted_aggregate (AggregateMemory.outcome_add hsafe fact)]
    cases memory.entry fact <;> exact ⟨rfl, rfl, rfl⟩

theorem safe_of_implements {alphas : List AlphaMemory} {condition : Condition} {node : Node}
    (h : node.Implements alphas condition) (hsafe : condition.Safe) : node.Safe := by
  cases h using Implements.cases with
  | pattern | join => exact trivial
  | negation memory => exact hsafe memory.filter rfl
  | aggregate memory => exact hsafe memory.filter rfl

theorem uses_of_implements {alphas : List AlphaMemory} {condition : Condition} {node : Node}
    (h : node.Implements alphas condition) {k : KeyBinding} (hk : k ∈ node.keys) :
    k.ref.var ∈ condition.uses := by
  cases h using Implements.cases with
  | pattern | join => simp [keys] at hk
  | negation | aggregate => exact List.mem_map.mpr ⟨k, hk, rfl⟩

theorem exact_counted {alphas : List AlphaMemory} {condition : Condition} {node : Node}
    {facts : List Fact} (himplements : node.Implements alphas condition) (h : node.Tracks facts)
    (hexact : node.Exact) (hcondition : condition.Safe) {fact : Fact} (hfresh : Unused fact.id facts)
    (hintegral : condition.Integral fact) : (node.counted fact).1.Exact := by
  have hsafe := safe_of_implements himplements hcondition
  cases himplements using Implements.cases with
  | pattern | join => exact trivial
  | negation memory =>
    obtain ⟨memory', reported, hok, -⟩ := NegationMemory.tracks_add h hsafe hfresh
    rw [counted_negation hok]
    exact trivial
  | aggregate memory =>
    rw [counted_aggregate (AggregateMemory.outcome_add hsafe fact)]
    cases hentry : memory.entry fact with
    | none => exact hexact
    | some found =>
      obtain ⟨key, x⟩ := found
      unfold AggregateMemory.entry at hentry
      split at hentry
      . next hadmits =>
        simp only [Option.map_eq_some_iff, Prod.mk.injEq] at hentry
        obtain ⟨y, hy, rfl, rfl⟩ := hentry
        exact AggregateMemory.exact_folded h hexact hfresh (frozen_factKey memory.keys fact)
          (hintegral (FactFilter.type_of_admits hadmits) y hy)
      . cases hentry

theorem child_counted {w : WorkingMemory} {token : Token} {node : Node}
    (hnode : node.isPattern = false) (fact : Fact) : (node.counted fact).1.Child w token token := by
  rw [child_iff]
  rw [← hnode]
  unfold counted
  cases node with
  | pattern | join => rfl
  | negation memory =>
    simp only [add, Logged.outcome_bind]
    cases (memory.add fact).outcome <;> rfl
  | aggregate memory =>
    simp only [add, Logged.outcome_bind]
    cases (memory.add fact).outcome <;> rfl

theorem counted_eq_self {alphas : List AlphaMemory} {condition : Condition} {node : Node}
    (h : node.Implements alphas condition) (hsafe : node.Safe) {fact : Fact}
    (htype : ∀ filter ∈ condition.filter?, filter.type ≠ fact.type) :
    node.counted fact = (node, none) := by
  have hnot : ∀ filter ∈ condition.filter?, filter.admits fact = false := by
    intro filter hfilter
    rw [Bool.eq_false_iff]
    exact fun hadmits => htype filter hfilter (FactFilter.type_of_admits hadmits).symm
  cases h using Implements.cases with
  | pattern | join => rfl
  | negation memory =>
    have hadd : (memory.add fact).outcome = .ok (memory, none) := by
      simp only [NegationMemory.add, Logged.outcome_bind, FactFilter.outcome_test hsafe,
        Except.bind, hnot memory.filter rfl]
      rfl
    rw [counted_negation hadd]
  | aggregate memory =>
    rw [counted_aggregate (AggregateMemory.outcome_add hsafe fact)]
    simp [AggregateMemory.entry, hnot memory.filter rfl]

theorem remove_eq_self {alphas : List AlphaMemory} {condition : Condition} {node : Node}
    {facts : List Fact} (h : node.Implements alphas condition) (htracks : node.Tracks facts)
    {id : Int} (htype : ∀ filter ∈ condition.filter?, ∀ fact ∈ facts, fact.id = id →
      fact.type ≠ filter.type) : node.remove id = (node, none) := by
  have hnot : ∀ filter ∈ condition.filter?, ∀ fact ∈ facts, fact.id = id →
      filter.admits fact = false := by
    intro filter hfilter fact hfact hid
    rw [Bool.eq_false_iff]
    exact fun hadmits => htype filter hfilter fact hfact hid (FactFilter.type_of_admits hadmits)
  cases h using Implements.cases with
  | pattern | join => rfl
  | negation memory =>
    have hlookup : memory.members.lookup id = none := by
      rw [htracks.members]
      apply Members.lookup_ofFacts_eq_none
      intro fact hfact hid
      simp [NegationMemory.entry, hnot memory.filter rfl fact hfact hid]
    simp [remove, NegationMemory.remove, hlookup]
  | aggregate memory =>
    have hlookup : memory.members.lookup id = none := by
      rw [htracks.members]
      apply Members.lookup_ofFacts_eq_none
      intro fact hfact hid
      simp [AggregateMemory.entry, hnot memory.filter rfl fact hfact hid]
    simp [remove, AggregateMemory.remove, hlookup]

theorem tracks_remove {node : Node} {facts : List Fact} (h : node.Tracks facts)
    (hdistinct : Distinct facts) (id : Int) :
    (node.remove id).1.Tracks (without id facts)
      ∧ node.Follows (node.remove id).1 (node.remove id).2 := by
  cases node with
  | pattern => exact ⟨trivial, rfl⟩
  | join => exact ⟨trivial, rfl⟩
  | negation memory =>
    obtain ⟨-, hkeys, htracks, hfollows⟩ := NegationMemory.tracks_remove h hdistinct id
    exact ⟨htracks, hkeys, hfollows⟩
  | aggregate memory =>
    obtain ⟨-, hkeys, htest, htracks, hfollows⟩ := AggregateMemory.tracks_remove h hdistinct id
    exact ⟨htracks, hkeys, htest, hfollows⟩

theorem exact_remove {node : Node} {facts : List Fact} (h : node.Tracks facts)
    (hexact : node.Exact) (hdistinct : Distinct facts) (id : Int) : (node.remove id).1.Exact := by
  cases node with
  | pattern => exact trivial
  | join => exact trivial
  | negation memory => exact trivial
  | aggregate memory => exact AggregateMemory.exact_remove h hexact hdistinct id

theorem implements_remove {alphas : List AlphaMemory} {condition : Condition} {node : Node}
    {facts : List Fact} (h : node.Implements alphas condition) (htracks : node.Tracks facts)
    (hdistinct : Distinct facts) (id : Int) : (node.remove id).1.Implements alphas condition := by
  cases h using Implements.cases with
  | pattern hmemory hidentity => exact ⟨_, hmemory, hidentity⟩
  | join => exact rfl
  | negation memory =>
    obtain ⟨hfilter, hkeys, -⟩ := NegationMemory.tracks_remove htracks hdistinct id
    exact ⟨hfilter, hkeys⟩
  | aggregate memory =>
    obtain ⟨hfilter, hkeys, htest, -⟩ := AggregateMemory.tracks_remove htracks hdistinct id
    exact ⟨hfilter, hkeys, htest⟩

end Node

/-- The stage with a node in the place of the old one that a function gives. -/
def Stage.touch (f : Node → Node × Option Key) (stage : Stage) : Stage :=
  { stage with node := (f stage.node).1 }

namespace Network

/--
Some positions were gone through, and a function was applied to the node at each of them. The keys it
reported were collected.
-/
structure Touched (f : Node → Node × Option Key) (positions : List (String × Nat))
    (net net' : Network) (changed : List Disturbance) : Prop where
  ruleSet : net'.ruleSet = net.ruleSet
  working : net'.working = net.working
  fired : net'.fired = net.fired
  agenda : net'.agenda = net.agenda
  serial : net'.serial = net.serial
  rules : net'.memories.map (·.rule) = net.memories.map (·.rule)
  memory? : ∀ name, net'.memory? name = (net.memory? name).map fun memory =>
    { memory with stages := memory.stages.mapIdx fun i stage =>
        if (name, i) ∈ positions then stage.touch f else stage }
  changed : ∀ d, d ∈ changed ↔ (d.rule, d.position) ∈ positions
    ∧ ∃ stage, net.stage? d.rule d.position = some stage ∧ (f stage.node).2 = some d.key

namespace Touched

variable {f : Node → Node × Option Key}

theorem nil (net : Network) : Touched f [] net net [] := by
  refine ⟨rfl, rfl, rfl, rfl, rfl, rfl, ?_, by simp⟩
  intro name
  cases net.memory? name with
  | none => rfl
  | some memory =>
    have hsame : (memory.stages.mapIdx fun _ stage => stage) = memory.stages := by
      apply List.ext_getElem?
      intro i
      simp
    simp [hsame]

theorem memory?_setNode (net : Network) (rule : String) (position : Nat) (node : Node)
    (name : String) :
    (net.setNode rule position node).memory? name = (net.memory? name).map fun memory =>
      if name = rule then
        { memory with stages := memory.stages.modify position fun stage => { stage with node } }
      else memory := by
  unfold setNode
  rw [memory?_mapStages]

theorem stage?_setNode_of_ne {net : Network} {rule : String} {position : Nat}
    (place : String × Nat) (hne : place ≠ (rule, position)) (entries : List LogEntry)
    (node : Node) :
    ((net.record entries).setNode rule position node).stage? place.1 place.2
      = net.stage? place.1 place.2 := by
  unfold stage?
  rw [memory?_setNode]
  change ((net.memory? place.1).map _).bind _ = _
  cases net.memory? place.1 with
  | none => rfl
  | some memory =>
    by_cases hname : place.1 = rule
    . have hi : ¬ position = place.2 := by
        intro heq
        apply hne
        rw [← hname, heq]
      simp [hname, hi]
    . simp [hname]

theorem rules_mapStages (net : Network) (rule : String) (g : List Stage → List Stage) :
    (net.mapStages rule g).memories.map (·.rule) = net.memories.map (·.rule) := by
  simp only [mapStages, List.map_map]
  apply List.map_congr_left
  intro memory _
  simp only [Function.comp_apply]
  split <;> rfl

theorem skip {rule : String} {position : Nat} {positions : List (String × Nat)}
    {net net' : Network} {changed : List Disturbance} (hnone : net.stage? rule position = none)
    (h : Touched f positions net net' changed) :
    Touched f ((rule, position) :: positions) net net' changed := by
  refine ⟨h.ruleSet, h.working, h.fired, h.agenda, h.serial, h.rules, ?_, ?_⟩
  . intro name
    rw [h.memory?]
    cases hmemory : net.memory? name with
    | none => rfl
    | some memory =>
      simp only [Option.map_some, Option.some.injEq, RuleMemory.mk.injEq, true_and]
      apply List.ext_getElem?
      intro i
      simp only [List.getElem?_mapIdx, List.mem_cons, Prod.mk.injEq]
      cases hstage : memory.stages[i]? with
      | none => rfl
      | some stage =>
        have hne : ¬ (name = rule ∧ i = position) := by
          rintro ⟨rfl, rfl⟩
          rw [stage?_eq hmemory, hstage] at hnone
          simp at hnone
        simp [hne]
  . intro d
    rw [h.changed]
    constructor
    . rintro ⟨hmem, hreport⟩
      exact ⟨List.mem_cons_of_mem _ hmem, hreport⟩
    . rintro ⟨hmem, stage, hstage, hreport⟩
      rcases List.mem_cons.mp hmem with heq | hmem
      . rw [Prod.mk.injEq] at heq
        rw [heq.1, heq.2, hnone] at hstage
        simp at hstage
      . exact ⟨hmem, stage, hstage, hreport⟩

section Cons

variable {rule : String} {position : Nat} {positions : List (String × Nat)} {net net' : Network}
  {changed : List Disturbance} {stage : Stage} (hstage : net.stage? rule position = some stage)
  (hnew : (rule, position) ∉ positions)

include hstage hnew

theorem mapIdx_modify {memory : RuleMemory} (hmemory : net.memory? rule = some memory) :
    ((memory.stages.modify position fun found => { found with node := (f stage.node).1 }).mapIdx
        fun i found => if (rule, i) ∈ positions then found.touch f else found)
      = memory.stages.mapIdx fun i found =>
          if (rule, i) ∈ (rule, position) :: positions then found.touch f else found := by
  rw [stage?_eq hmemory] at hstage
  apply List.ext_getElem?
  intro i
  simp only [List.getElem?_mapIdx, List.getElem?_modify, List.mem_cons, Prod.mk.injEq, true_and]
  by_cases hi : position = i
  . subst hi
    simp [hstage, hnew, Stage.touch]
  . have hi' : ¬ i = position := fun heq => hi heq.symm
    simp [hi, hi']

omit hnew in
theorem mem_reported {d : Disturbance} :
    d ∈ (f stage.node).2.toList.map (Disturbance.mk rule position)
      ↔ (d.rule, d.position) = (rule, position)
        ∧ ∃ found, net.stage? d.rule d.position = some found ∧ (f found.node).2 = some d.key := by
  simp only [List.mem_map, Option.mem_toList, Prod.mk.injEq]
  constructor
  . rintro ⟨key, hkey, rfl⟩
    exact ⟨⟨rfl, rfl⟩, stage, hstage, hkey⟩
  . rintro ⟨⟨hrule, hposition⟩, found, hfound, hkey⟩
    rw [hrule, hposition, hstage, Option.some.injEq] at hfound
    refine ⟨d.key, by rw [hfound, hkey], ?_⟩
    rw [← hrule, ← hposition]

theorem cons {net₁ : Network}
    (hset : ∃ entries, net₁ = (net.record entries).setNode rule position (f stage.node).1)
    (h : Touched f positions net₁ net' changed) :
    Touched f ((rule, position) :: positions) net net'
      (((f stage.node).2.toList.map fun key => ⟨rule, position, key⟩) ++ changed) := by
  obtain ⟨entries, rfl⟩ := hset
  refine ⟨h.ruleSet, h.working, h.fired, h.agenda, h.serial, h.rules.trans (rules_mapStages _ _ _),
    ?_, ?_⟩
  . intro name
    rw [h.memory?, memory?_setNode]
    change ((net.memory? name).map _).map _ = _
    cases hmemory : net.memory? name with
    | none => rfl
    | some memory =>
      simp only [Option.map_some, Option.some.injEq]
      by_cases hname : name = rule
      . subst hname
        rw [if_pos rfl, mapIdx_modify hstage hnew hmemory]
      . simp [hname]
  . intro d
    have hother : (d.rule, d.position) ∈ positions →
        ((net.record entries).setNode rule position (f stage.node).1).stage? d.rule d.position
          = net.stage? d.rule d.position := by
      intro hmem
      apply stage?_setNode_of_ne (d.rule, d.position)
      intro heq
      exact hnew (heq ▸ hmem)
    rw [List.mem_append, mem_reported hstage, h.changed, List.mem_cons, or_and_right]
    refine or_congr_right (and_congr_right fun hmem => ?_)
    rw [hother hmem]

end Cons

theorem memory?_of_idle {positions : List (String × Nat)} {net net' : Network}
    {changed : List Disturbance} (h : Touched f positions net net' changed) {name : String}
    {memory : RuleMemory} (hmemory : net.memory? name = some memory)
    (hidle : ∀ i stage, memory.stages[i]? = some stage → (name, i) ∉ positions →
      f stage.node = (stage.node, none)) :
    net'.memory? name = some { memory with stages := memory.stages.map (Stage.touch f) } := by
  rw [h.memory?, hmemory, Option.map_some, Option.some.injEq, RuleMemory.mk.injEq]
  refine ⟨rfl, ?_⟩
  apply List.ext_getElem?
  intro i
  rw [List.getElem?_mapIdx, List.getElem?_map]
  cases hstage : memory.stages[i]? with
  | none => rfl
  | some stage =>
    rw [Option.map_some, Option.map_some, Option.some.injEq]
    split
    . rfl
    . next hnot =>
      rw [Stage.touch, hidle i stage hstage hnot]

theorem mem_changed_of_idle {positions : List (String × Nat)} {net net' : Network}
    {changed : List Disturbance} (h : Touched f positions net net' changed) {name : String}
    {memory : RuleMemory} (hmemory : net.memory? name = some memory)
    (hidle : ∀ i stage, memory.stages[i]? = some stage → (name, i) ∉ positions →
      f stage.node = (stage.node, none)) (position : Nat) (key : Key) :
    (⟨name, position, key⟩ : Disturbance) ∈ changed
      ↔ ∃ stage, memory.stages[position]? = some stage ∧ (f stage.node).2 = some key := by
  rw [h.changed]
  simp only [stage?_eq hmemory]
  constructor
  . rintro ⟨-, hstage⟩
    exact hstage
  . rintro ⟨stage, hstage, hreport⟩
    refine ⟨?_, stage, hstage, hreport⟩
    by_contra hnot
    rw [hidle position stage hstage hnot] at hreport
    simp at hreport

end Touched

theorem touched_count {fact : Fact} {positions : List (String × Nat)} {net : Network}
    (hsafe : ∀ place ∈ positions, ∀ stage, net.stage? place.1 place.2 = some stage →
      stage.node.Safe)
    (hnodup : positions.Nodup) :
    ∃ changed, (count fact positions net).2 = .ok changed
      ∧ Touched (Node.counted fact) positions net (count fact positions net).1 changed := by
  induction positions generalizing net with
  | nil => exact ⟨[], rfl, .nil net⟩
  | cons place positions ih =>
    obtain ⟨rule, position⟩ := place
    obtain ⟨hnew, hnodup⟩ := List.nodup_cons.mp hnodup
    unfold count
    cases hstage : net.stage? rule position with
    | none =>
      obtain ⟨changed, hok, htouched⟩ :=
        ih (fun place hplace => hsafe place (by simp [hplace])) hnodup
      exact ⟨changed, hok, htouched.skip hstage⟩
    | some stage =>
      simp only [Node.outcome_add (hsafe (rule, position) (by simp) stage hstage) fact]
      -- No place comes twice, so the other stages are still the old ones.
      have hrest := @ih ((net.record (stage.node.add fact).log).setNode rule position
        (stage.node.counted fact).1)
      obtain ⟨changed, hok, htouched⟩ := hrest (by
        intro place hplace stage' hstage'
        rw [Touched.stage?_setNode_of_ne place fun heq => hnew (heq ▸ hplace)] at hstage'
        exact hsafe place (by simp [hplace]) stage' hstage') hnodup
      refine ⟨((stage.node.counted fact).2.toList.map fun key => ⟨rule, position, key⟩) ++ changed,
        ?_, ?_⟩
      . split
        . next heq => simp [heq] at hok
        . next heq =>
          rw [heq] at hok
          cases hok
          rfl
      . split
        . next heq => simp [heq] at hok
        . next heq =>
          rw [heq] at hok htouched
          cases hok
          exact .cons hstage hnew ⟨_, rfl⟩ htouched

theorem touched_uncount (id : Int) (net : Network) {positions : List (String × Nat)}
    (hnodup : positions.Nodup) :
    Touched (Node.remove id) positions net (uncount id positions net).1
      (uncount id positions net).2 := by
  induction positions generalizing net with
  | nil => exact .nil net
  | cons place positions ih =>
    obtain ⟨rule, position⟩ := place
    obtain ⟨hnew, hnodup⟩ := List.nodup_cons.mp hnodup
    unfold uncount
    cases hstage : net.stage? rule position with
    | none => exact (ih net hnodup).skip hstage
    | some stage =>
      have hrest := ih (net.setNode rule position (stage.node.remove id).1) hnodup
      apply Touched.cons hstage hnew _ hrest
      refine ⟨[], ?_⟩
      unfold record
      rw [List.append_nil]

end Network
end ForwardChaining
