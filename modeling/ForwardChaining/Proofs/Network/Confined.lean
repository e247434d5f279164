import ForwardChaining.Proofs.Network.Change

/-!
This module contains what following a change can fail with: with nothing but what the tests of a rule can
fail with for tokens of live facts that bind what these tests read. In a rule whose conditions are scoped
no other token ever reaches a test.
-/

namespace ForwardChaining

namespace Condition

/-- A token of live facts, one for each bound variable. -/
def Fits (w : WorkingMemory) (bound : List String) (token : Token) : Prop :=
  w.Live token ∧ token.length = bound.length

theorem fits_nil (w : WorkingMemory) : ∀ token ∈ ([[]] : List Token), Fits w [] token := by
  intro token htoken
  rw [List.mem_singleton.mp htoken]
  exact ⟨WorkingMemory.live_nil, rfl⟩

/-- The node does the work of the condition, and its test fails in no other way if what it reads is bound. -/
structure Confined (P : Fault → Prop) (w : WorkingMemory) (vars : List String)
    (condition : Condition) (node : Node) : Prop where
  implements : node.Implements w.alphas condition
  advance : ∀ token, w.Live token → (∀ var ∈ condition.uses, var ∈ vars.take token.length) →
    FailsWith P (node.advance w vars token).outcome

section Tokens

variable {w : WorkingMemory}

theorem vars_take {bound vars : List String} {conditions : List Condition} {token : Token}
    (hvars : (bound ++ conditions.filterMap (·.var?)).IsPrefix vars)
    (hlength : token.length = bound.length) : vars.take token.length = bound := by
  have hfront := (List.prefix_append bound _).trans hvars
  rw [hlength]
  exact (List.prefix_iff_eq_take.mp hfront).symm

theorem uses_of_scoped {bound : List String} {conditions : List Condition}
    (h : Scoped bound conditions) {i : Nat} {condition : Condition}
    (hi : conditions[i]? = some condition) :
    ∀ var ∈ condition.uses, var ∈ bound ++ (conditions.take i).filterMap (·.var?) := by
  induction conditions generalizing bound i with
  | nil => simp at hi
  | cons first conditions ih =>
    cases i with
    | zero =>
      rw [List.getElem?_cons_zero, Option.some.injEq] at hi
      intro var hvar
      rw [← hi] at hvar
      exact List.mem_append_left _ (h.1 var hvar)
    | succ i =>
      intro var hvar
      rw [List.take_succ_cons, filterMap_cons_append, ← List.append_assoc]
      exact ih h.2 hi var hvar

variable (halphas : ∀ memory ∈ w.alphas, memory.Tracks w.facts)

include halphas

theorem fits_child {condition : Condition} {node : Node}
    (himplements : node.Implements w.alphas condition) {bound : List String} {token child : Token}
    (hfits : Fits w bound token) (hchild : node.Child w token child) :
    Fits w (bound ++ condition.var?.toList) child := by
  refine ⟨WorkingMemory.live_child halphas hfits.1 hchild, ?_⟩
  cases himplements using Node.Implements.cases with
  | pattern =>
    obtain ⟨id, -, -, rfl⟩ := hchild
    simp [var?, hfits.2]
  | join | negation | aggregate =>
    rw [(Node.child_iff rfl).mp hchild]
    simpa [var?] using hfits.2

theorem fits_final {conditions : List Condition} {stages : List Stage}
    (himplements : List.Forall₂ (fun c s => s.node.Implements w.alphas c) conditions stages)
    {bound : List String} {parents : List Token} (hfits : ∀ token ∈ parents, Fits w bound token)
    (hground : Stage.AllGrounded w parents stages) :
    ∀ token ∈ Stage.final parents stages,
      Fits w (bound ++ conditions.filterMap (·.var?)) token := by
  induction himplements generalizing bound parents with
  | nil => simpa [Stage.final] using hfits
  | @cons condition stage conditions stages hfirst _ ih =>
    have hstage : ∀ token ∈ stage.tokens, Fits w (bound ++ condition.var?.toList) token := by
      intro child hchild
      obtain ⟨token, htoken, hof⟩ := hground.1.closed child hchild
      exact fits_child halphas hfirst (hfits token htoken) hof
    rw [filterMap_cons_append, ← List.append_assoc]
    exact ih hstage hground.2

end Tokens

section Push

variable {P : Fault → Prop} {w : WorkingMemory}
  (halphas : ∀ memory ∈ w.alphas, memory.Tracks w.facts) {vars : List String}
  {conditions : List Condition} {stages : List Stage}
  (hconfined : List.Forall₂ (fun c s => Confined P w vars c s.node) conditions stages)
  {bound : List String} (hscoped : Scoped bound conditions)
  (hvars : (bound ++ conditions.filterMap (·.var?)).IsPrefix vars)

include halphas hconfined hscoped hvars

theorem push_confined {fresh : List Token} (hfits : ∀ token ∈ fresh, Fits w bound token) :
    FailsWith P (Stage.push w vars fresh stages).2.outcome
      ∧ ∀ new, (Stage.push w vars fresh stages).2.outcome = .ok new →
        ∀ token ∈ new, w.Live token := by
  induction hconfined generalizing bound fresh with
  | nil =>
    refine ⟨.ok fresh, ?_⟩
    rintro new ⟨⟩ token htoken
    exact (hfits token htoken).1
  | @cons condition stage conditions stages hfirst _ ih =>
    have hgather : FailsWith P (Logged.gather (stage.node.advance w vars) fresh).outcome := by
      apply FailsWith.gather
      intro token htoken
      obtain ⟨hlive, hlength⟩ := hfits token htoken
      apply hfirst.advance token hlive
      intro var hvar
      rw [vars_take hvars hlength]
      exact hscoped.1 var hvar
    cases hnext : (Logged.gather (stage.node.advance w vars) fresh).outcome with
    | error fault =>
      rw [Stage.push_cons_error hnext]
      exact ⟨.error (hgather fault hnext), nofun⟩
    | ok next =>
      rw [filterMap_cons_append, ← List.append_assoc] at hvars
      rw [Stage.push_cons_ok hnext]
      apply ih hscoped.2 hvars
      intro child hchild
      obtain ⟨token, htoken, hyields⟩ :=
        (Logged.mem_of_gather hnext child).mp (Stage.mem_merge.mp hchild).1
      exact fits_child halphas hfirst.implements (hfits token htoken) (Node.child_of_yields hyields)

theorem extend_confined {position : Nat} {tokens : List Token}
    (hfits : ∀ token ∈ tokens,
      Fits w (bound ++ (conditions.take (position + 1)).filterMap (·.var?)) token) :
    FailsWith P (Stage.extend w vars tokens position stages).2.outcome
      ∧ ∀ new, (Stage.extend w vars tokens position stages).2.outcome = .ok new →
        ∀ token ∈ new, w.Live token := by
  induction hconfined generalizing bound position with
  | nil =>
    rw [Stage.extend_nil]
    refine ⟨.ok [], ?_⟩
    rintro new ⟨⟩
    simp
  | @cons condition stage conditions stages hfirst hrest ih =>
    rw [filterMap_cons_append, ← List.append_assoc] at hvars
    rw [List.take_succ_cons, filterMap_cons_append, ← List.append_assoc] at hfits
    cases position with
    | zero =>
      apply push_confined halphas hrest hscoped.2 hvars
      intro token htoken
      simpa using hfits token (Stage.mem_merge.mp htoken).1
    | succ position => exact ih hscoped.2 hvars hfits

end Push

end Condition

namespace Network

/-! ### Activations -/

theorem boundFacts_eq_ok {net : Network} {token : Token} {facts : List Fact} :
    net.boundFacts token = .ok facts
      ↔ List.Forall₂ (fun id fact => net.working.find id = .ok fact) token facts := by
  unfold boundFacts
  induction token generalizing facts with
  | nil =>
    rw [List.mapM_nil, List.forall₂_nil_left_iff]
    exact ⟨fun h => (Except.ok.inj h).symm, fun h => by rw [h]; rfl⟩
  | cons id token ih =>
    rw [List.mapM_cons, List.forall₂_cons_left_iff]
    simp only [doBind_eq_ok, ih]
    constructor
    . rintro ⟨fact, hfact, rest, hrest, heq⟩
      exact ⟨fact, rest, hfact, hrest, (Except.ok.inj heq).symm⟩
    . rintro ⟨fact, rest, hfact, hrest, rfl⟩
      exact ⟨fact, hfact, rest, hrest, rfl⟩

theorem boundFacts_ok {net : Network} (hdistinct : Distinct net.working.facts) {token : Token}
    (hlive : net.working.Live token) : ∃ facts, net.boundFacts token = .ok facts := by
  induction token with
  | nil => exact ⟨[], rfl⟩
  | cons id token ih =>
    obtain ⟨fact, hfact, rfl⟩ := hlive id (by simp)
    obtain ⟨facts, hfacts⟩ := ih fun other hother => hlive other (by simp [hother])
    rw [boundFacts_eq_ok] at hfacts
    exact ⟨fact :: facts, boundFacts_eq_ok.mpr (.cons (WorkingMemory.find_eq hdistinct hfact) hfacts)⟩

theorem activate_ok {net : Network} (hdistinct : Distinct net.working.facts) (rule : Rule)
    {token : Token} (hlive : net.working.Live token) :
    (activate rule token net).2 = none := by
  obtain ⟨facts, hfacts⟩ := boundFacts_ok hdistinct hlive
  unfold activate
  rw [hfacts]
  dsimp only
  split <;> rfl

theorem working_activate (rule : Rule) (token : Token) (net : Network) :
    (activate rule token net).1.working = net.working := by
  unfold activate
  split
  . rfl
  . dsimp only
    split <;> rfl

theorem activateEach_ok {net : Network} (hdistinct : Distinct net.working.facts) (rule : Rule)
    {tokens : List Token} (hlive : ∀ token ∈ tokens, net.working.Live token) :
    (Update.each (activate rule) tokens net).2 = none := by
  induction tokens generalizing net with
  | nil => rfl
  | cons token tokens ih =>
    have hfirst := activate_ok hdistinct rule (hlive token (by simp))
    have hworking := working_activate rule token net
    simp only [Update.each, Update.andThen]
    cases hactivate : activate rule token net with
    | mk net' fault =>
      rw [hactivate] at hfirst hworking
      simp only at hfirst hworking
      subst hfirst
      apply ih
      . rw [hworking]
        exact hdistinct
      . intro other hother
        rw [hworking]
        exact hlive other (by simp [hother])

/-! ### Tokens -/

section Fits

variable {net : Network} (h : net.Sound) {name : String} {memory : RuleMemory}
  (hmemory : net.memory? name = some memory)

include h hmemory

theorem fits_parents (position : Nat) :
    ∀ token ∈ Stage.final [[]] (memory.stages.take position), Condition.Fits net.working
      ((memory.rule.conditions.take position).filterMap (·.var?)) token := by
  have himplements := List.forall₂_take position (h.implements name memory hmemory)
  exact Condition.fits_final h.alphas himplements (Condition.fits_nil _)
    ((h.grounded name memory hmemory).take position)

theorem fits_children {position : Nat} {stage : Stage}
    (hstage : memory.stages[position]? = some stage) {token child : Token}
    (htoken : token ∈ Stage.final [[]] (memory.stages.take position))
    (hchild : stage.node.Child net.working token child) :
    Condition.Fits net.working
      ((memory.rule.conditions.take (position + 1)).filterMap (·.var?)) child := by
  obtain ⟨-, condition, hcondition, himplements, -⟩ := h.exists_condition hmemory hstage
  have hfits := Condition.fits_child h.alphas himplements
    (fits_parents h hmemory position token htoken) hchild
  rw [List.take_add_one, List.filterMap_append, hcondition]
  cases hvar : condition.var? <;> simpa [hvar] using hfits

end Fits

/-! ### Tasks -/

/-- The conditions of the rule are scoped, and its tests fail in no other way. -/
structure Confined (P : Fault → Prop) (net : Network) (name : String) : Prop where
  scope : ∀ rule ∈ net.ruleSet.rules, rule.name = name → Condition.Scoped [] rule.conditions
  tests : ∀ memory, net.memory? name = some memory →
    List.Forall₂ (fun c s => Condition.Confined P net.working memory.rule.vars c s.node)
      memory.rule.conditions memory.stages

theorem Confined.keeps {P : Fault → Prop} {net net' : Network} {name : String}
    (h : net.Confined P name) (hkeeps : net.Keeps net') : net'.Confined P name := by
  refine ⟨?_, ?_⟩
  . rw [hkeeps.ruleSet]
    exact h.scope
  . intro memory' hmemory'
    obtain ⟨memory, hmemory, hrule, hnodes⟩ := hkeeps.nodes name memory' hmemory'
    have htests := h.tests memory hmemory
    rw [hkeeps.working, hrule]
    -- the tests are those of the nodes, which are the same
    rw [← List.forall₂_map_right_iff (f := Stage.node)
      (R := Condition.Confined P net.working memory.rule.vars)] at htests ⊢
    rw [hnodes]
    exact htests

section Confined

variable {P : Fault → Prop} {net : Network} (h : net.Sound) {name : String}
  (hconfined : net.Confined P name) {memory : RuleMemory} (hmemory : net.memory? name = some memory)

include h hmemory

theorem extend_failsWith_of_live {position : Nat} {tokens : List Token}
    (hfails : FailsWith P
      (Stage.extend net.working memory.rule.vars tokens position memory.stages).2.outcome)
    (hlive : ∀ new, (Stage.extend net.working memory.rule.vars tokens position
      memory.stages).2.outcome = .ok new → ∀ token ∈ new, net.working.Live token) :
    (net.extend name position tokens).FailsWith P := by
  unfold extend
  simp only [hmemory]
  cases hok : (Stage.extend net.working memory.rule.vars tokens position memory.stages).2.outcome with
  | error fault =>
    rintro _ ⟨⟩
    exact hfails fault hok
  | ok new =>
    apply Update.FailsWith.of_none
    apply activateEach_ok
    . exact h.distinct
    . exact hlive new hok

include hconfined

theorem scope_of_confined : Condition.Scoped [] memory.rule.conditions := by
  apply hconfined.scope memory.rule _ (name_of_memory? hmemory)
  rw [← h.rules]
  exact List.mem_map.mpr ⟨memory, List.mem_of_find?_eq_some hmemory, rfl⟩

theorem extend_failsWith {position : Nat} {tokens : List Token}
    (hfits : ∀ token ∈ tokens, Condition.Fits net.working
      ((memory.rule.conditions.take (position + 1)).filterMap (·.var?)) token) :
    (net.extend name position tokens).FailsWith P := by
  have hvars : (memory.rule.conditions.filterMap (·.var?)).IsPrefix memory.rule.vars :=
    List.prefix_refl _
  obtain ⟨hfails, hlive⟩ := Condition.extend_confined h.alphas (hconfined.tests memory hmemory)
    (scope_of_confined h hconfined hmemory) hvars hfits
  exact extend_failsWith_of_live h hmemory hfails hlive

theorem seed_failsWith (id : Int) (position : Nat) : (seed id (name, position) net).FailsWith P := by
  rcases seed_cases hmemory id position with ⟨heq, -⟩ | ⟨stage, alpha, hstage, hnode, hmem, heq⟩
  . rw [heq]
    exact .of_none rfl
  . rw [heq]
    apply extend_failsWith h hconfined hmemory
    intro child hchild
    obtain ⟨token, htoken, hnew, rfl⟩ := mem_seedlings.mp hchild
    apply fits_children h hmemory hstage htoken
    rw [hnode]
    exact ⟨id, hmem, hnew, rfl⟩

theorem uses_of_parent {position : Nat} {condition : Condition}
    (hcondition : memory.rule.conditions[position]? = some condition) {token : Token}
    (htoken : token ∈ Stage.final [[]] (memory.stages.take position)) :
    ∀ var ∈ condition.uses, var ∈ memory.rule.vars.take token.length := by
  obtain ⟨-, hlength⟩ := fits_parents h hmemory position token htoken
  intro var hvar
  have hmem := Condition.uses_of_scoped (scope_of_confined h hconfined hmemory) hcondition var hvar
  have hfront : ((memory.rule.conditions.take position).filterMap (·.var?)).IsPrefix
      memory.rule.vars := (List.take_prefix _ _).filterMap _
  rw [hlength, ← List.prefix_iff_eq_take.mp hfront]
  simpa using hmem

theorem decided_confined {position : Nat} {stage : Stage}
    (hstage : memory.stages[position]? = some stage) (key : Key) {token : Token}
    (htoken : token ∈ Stage.final [[]] (memory.stages.take position)) :
    (∃ asks, net.asksFor memory.rule.vars stage.node.keys key token = .ok asks)
      ∧ FailsWith P (stage.node.advance net.working memory.rule.vars token).outcome := by
  obtain ⟨-, condition, hcondition, himplements, -⟩ := h.exists_condition hmemory hstage
  obtain ⟨hlive, -⟩ := fits_parents h hmemory position token htoken
  have huses := uses_of_parent h hconfined hmemory hcondition htoken
  constructor
  . obtain ⟨bindings, hbindings, hvars, -⟩ :=
      WorkingMemory.bindings_ok h.distinct hlive memory.rule.vars
    obtain ⟨asked, hasked⟩ : ∃ asked, bindingKey stage.node.keys bindings = .ok asked := by
      apply bindingKey_ok
      intro k hk
      rw [Bindings.Binds, hvars]
      exact huses _ (Node.uses_of_implements himplements hk)
    exact ⟨_, asksFor_eq_ok.mpr ⟨bindings, asked, hbindings, hasked, rfl⟩⟩
  . have htests := hconfined.tests memory hmemory
    rw [List.forall₂_iff_get] at htests
    obtain ⟨hi, rfl⟩ := List.getElem?_eq_some_iff.mp hcondition
    obtain ⟨hi', rfl⟩ := List.getElem?_eq_some_iff.mp hstage
    exact (htests.2 position hi hi').advance token hlive huses

omit h hconfined hmemory in
theorem verdicts_failsWith {vars : List String} {node : Node} {key : Key} {tokens : List Token}
    (hdecided : ∀ token ∈ tokens, (∃ asks, net.asksFor vars node.keys key token = .ok asks)
      ∧ FailsWith P (node.advance net.working vars token).outcome) :
    FailsWith P (net.verdicts vars node key tokens).outcome := by
  induction tokens with
  | nil => exact .ok ([], [])
  | cons token tokens ih =>
    obtain ⟨⟨asks, hasks⟩, hadvance⟩ := hdecided token (by simp)
    have hrest := ih fun other hother => hdecided other (by simp [hother])
    simp only [verdicts, Logged.outcome_bind, Logged.outcome_monadLift, hasks, Except.bind]
    cases asks with
    | false => exact hrest
    | true =>
      rw [if_pos rfl, Logged.outcome_bind]
      refine hadvance.bind fun out _ => ?_
      rw [Logged.outcome_bind]
      exact hrest.bind fun _ _ => .ok _

theorem reevaluate_failsWith {position : Nat} (key : Key)
    (hsuits : (Task.retest ⟨name, position, key⟩).Suits net) :
    (reevaluate ⟨name, position, key⟩ net).FailsWith P := by
  cases hstage : memory.stages[position]? with
  | none =>
    rw [reevaluate_of_none (by rw [stage?_eq hmemory, hstage])]
    exact .of_none rfl
  | some stage =>
    have hnode := hsuits stage (by rw [stage?_eq hmemory, hstage])
    have hfails := verdicts_failsWith
      fun token htoken => decided_confined h hconfined hmemory hstage key htoken
    rw [← Stage.parents_eq_final] at hfails
    cases hverdicts : (net.verdicts memory.rule.vars stage.node key
      (Stage.parents position memory.stages)).outcome with
    | error fault =>
      rw [reevaluate_eq_error hmemory hstage hverdicts]
      rintro _ ⟨⟩
      exact hfails fault hverdicts
    | ok found =>
      obtain ⟨passing, failing⟩ := found
      rw [reevaluate_eq_extend hmemory hstage hverdicts]
      have hdecided := verdicts_ok hnode hverdicts
      rw [Stage.parents_eq_final] at hdecided
      have hrecord := reaches_record net (net.verdicts memory.rule.vars stage.node key
        (Stage.parents position memory.stages)).log hmemory
      have hdropped := hrecord.trans (reaches_drop (hrecord.memory?_self hmemory) position
        fun token => (failing.filter stage.tokens.contains).contains
          (token.take (Stage.width position memory.stages)))
      have hnodes := Stage.map_node_drop (fun token => (failing.filter stage.tokens.contains).contains
        (token.take (Stage.width position memory.stages))) position memory.stages
      have hsound := h.reaches hmemory hdropped hnodes
        (grounded_dropped (h.grounded name memory hmemory) hstage)
      apply extend_failsWith hsound (hconfined.keeps (.of_reaches hmemory hdropped hnodes))
        (hdropped.memory?_self hmemory)
      intro token htoken
      rw [hdropped.working]
      rw [List.mem_filter, hdecided.passes_iff] at htoken
      exact fits_children h hmemory hstage htoken.1.1 ((Node.child_iff hnode).mpr rfl)

end Confined

theorem run_failsWith {P : Fault → Prop} {net : Network} (h : net.Sound) (id : Int) {task : Task}
    (hsuits : task.Suits net) (hconfined : net.Confined P task.rule) :
    (task.run id net).FailsWith P := by
  cases hmemory : net.memory? task.rule with
  | none =>
    cases task with
    | seed place =>
      obtain ⟨rule, position⟩ := place
      change net.memory? rule = none at hmemory
      change (seed id (rule, position) net).FailsWith P
      rw [seed_of_none hmemory]
      exact .of_none rfl
    | retest d =>
      change net.memory? d.rule = none at hmemory
      have hstage : net.stage? d.rule d.position = none := by
        unfold stage?
        rw [hmemory]
        rfl
      change (reevaluate d net).FailsWith P
      rw [reevaluate_of_none hstage]
      exact .of_none rfl
  | some memory =>
    cases task with
    | seed place => exact seed_failsWith h hconfined hmemory id place.2
    | retest d => exact reevaluate_failsWith h hconfined hmemory d.key hsuits

theorem tasks_failsWith {P : Fault → Prop} {net : Network} (h : net.Sound) (id : Int)
    {tasks : List Task} (hsuits : ∀ task ∈ tasks, task.Suits net)
    (hconfined : ∀ name, net.Confined P name) :
    (Update.each (Task.run id) tasks net).FailsWith P := by
  induction tasks generalizing net with
  | nil => exact .of_none rfl
  | cons task tasks ih =>
    obtain ⟨hkeeps, hsound, -⟩ := sound_task h id (hsuits task (by simp))
    refine .andThen (run_failsWith h id (hsuits task (by simp)) (hconfined task.rule)) fun _ => ?_
    exact ih hsound (fun other hother => suits_of_keeps hkeeps (hsuits other (by simp [hother])))
      fun name => (hconfined name).keeps hkeeps

theorem unfinished_eq_nil {id : Int} {tasks : List Task} {net : Network}
    (h : (Update.each (Task.run id) tasks net).2 = none) : unfinished id tasks net = [] := by
  induction tasks generalizing net with
  | nil => rfl
  | cons task tasks ih =>
    simp only [Update.each, Update.andThen] at h
    simp only [unfinished]
    cases htask : task.run id net with
    | mk net' fault =>
      rw [htask] at h
      cases fault with
      | none => exact ih h
      | some fault => cases h

end Network
end ForwardChaining
