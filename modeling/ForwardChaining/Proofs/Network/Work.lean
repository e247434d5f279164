import ForwardChaining.Proofs.Network.Sound

/-!
This module contains the work that follows a change of a fact: the fact is bound at patterns, and tokens
are tested again whose key has changed. Every task leaves the network sound, and a task that does not
fail decides about the tokens that were in doubt because of it.
-/

namespace ForwardChaining

/-- A piece of the work that follows a change. -/
inductive Task where
  /-- Bind the fact at a pattern. -/
  | seed (place : String × Nat)
  /-- Test the tokens again that ask for a key. -/
  | retest (d : Disturbance)

namespace Task

/-- The rule that the task is about. -/
def rule : Task → String
  | .seed place => place.1
  | .retest d => d.rule

/-- Do the task for the fact that has changed. -/
def run (id : Int) : Task → Network → Update Network
  | .seed place => Network.seed id place
  | .retest d => Network.reevaluate d

/-- The task decides about a token at a position of a rule. -/
def Decides (id : Int) (w : WorkingMemory) (rule : Rule) (nodes : List Node) (i : Nat)
    (token : Token) : Task → Prop
  | .seed place => place = (rule.name, i) ∧ token.getLast? = some id
    ∧ ∃ node, nodes[i]? = some node ∧ node.isPattern = true
  | .retest d => (d.rule, d.position) = (rule.name, i)
    ∧ ∃ node, nodes[i]? = some node ∧ Network.Asks w rule.vars node.keys d.key token

/-- Tokens are tested again only at conditions that bind nothing. -/
def Suits (net : Network) : Task → Prop
  | .seed _ => True
  | .retest d =>
    ∀ stage, net.stage? d.rule d.position = some stage → stage.node.isPattern = false

theorem rule_of_decides {task : Task} {id : Int} {w : WorkingMemory} {rule : Rule}
    {nodes : List Node} {i : Nat} {token : Token} (h : task.Decides id w rule nodes i token) :
    task.rule = rule.name := by
  cases task with
  | seed place => simp [Task.rule, h.1]
  | retest d => exact (Prod.mk.inj h.1).1

end Task

namespace Network

theorem map_node_stages {net net' : Network} {name : String} {memory memory' : RuleMemory}
    (hkeeps : net.Keeps net') (hmemory : net.memory? name = some memory)
    (hmemory' : net'.memory? name = some memory') :
    memory'.rule = memory.rule ∧ memory'.stages.map (·.node) = memory.stages.map (·.node) := by
  obtain ⟨found, hfound, hrule, hnodes⟩ := hkeeps.nodes name memory' hmemory'
  rw [hmemory, Option.some.injEq] at hfound
  rw [hfound]
  exact ⟨hrule, hnodes⟩

theorem suits_of_keeps {net net' : Network} (hkeeps : net.Keeps net') {task : Task}
    (h : task.Suits net) : task.Suits net' := by
  cases task with
  | seed place => trivial
  | retest d =>
    intro stage' hstage'
    obtain ⟨memory', hmemory', hat'⟩ := Option.bind_eq_some_iff.mp hstage'
    obtain ⟨memory, hmemory, -, hnodes⟩ := hkeeps.nodes d.rule memory' hmemory'
    have hnode : (memory.stages.map (·.node))[d.position]? = some stage'.node := by
      rw [← hnodes, List.getElem?_map, hat']
      rfl
    rw [List.getElem?_map, Option.map_eq_some_iff] at hnode
    obtain ⟨stage, hat, heq⟩ := hnode
    rw [← heq]
    exact h stage (by rw [stage?_eq hmemory, hat])

/-! ### Seeds -/

theorem seed_of_none {net : Network} {rule : String} (h : net.memory? rule = none) (id : Int)
    (position : Nat) : seed id (rule, position) net = (net, none) := by
  unfold seed
  simp only [h]

theorem seed_cases {net : Network} {rule : String} {memory : RuleMemory}
    (h : net.memory? rule = some memory) (id : Int) (position : Nat) :
    (seed id (rule, position) net = (net, none)
      ∧ ∀ stage, memory.stages[position]? = some stage → ∀ alpha,
        stage.node = .pattern alpha → id ∉ net.working.members alpha)
    ∨ ∃ stage alpha, memory.stages[position]? = some stage ∧ stage.node = .pattern alpha
      ∧ id ∈ net.working.members alpha
      ∧ seed id (rule, position) net = net.extend rule position
          (seedlings id (Stage.final [[]] (memory.stages.take position))) := by
  by_cases hthere : ∃ stage alpha, memory.stages[position]? = some stage
      ∧ stage.node = .pattern alpha ∧ id ∈ net.working.members alpha
  . obtain ⟨stage, alpha, hstage, hnode, hmem⟩ := hthere
    exact .inr ⟨stage, alpha, hstage, hnode, hmem, seed_eq_extend h hstage hnode hmem⟩
  . have hnone : ∀ stage, memory.stages[position]? = some stage → ∀ alpha,
        stage.node = .pattern alpha → id ∉ net.working.members alpha := by
      intro stage hstage alpha hnode hmem
      exact hthere ⟨stage, alpha, hstage, hnode, hmem⟩
    exact .inl ⟨seed_eq_self h hnone, hnone⟩

section Seedlings

variable {w : WorkingMemory} {vars : List String} {id : Int} {position alpha : Nat}
  {stage : Stage} {stages : List Stage}
  (hstage : stages[position]? = some stage) (hnode : stage.node = .pattern alpha)
  (hmem : id ∈ w.members alpha)

include hstage hnode hmem

theorem yields_seedlings (vars : List String) : ∀ found, stages[position]? = some found →
    ∀ child ∈ seedlings id (Stage.final [[]] (stages.take position)),
      ∃ token ∈ Stage.final [[]] (stages.take position), found.node.Yields w vars token child := by
  intro found hfound child hchild
  rw [hstage, Option.some.injEq] at hfound
  rw [← hfound, hnode]
  obtain ⟨token, htoken, hnew, rfl⟩ := mem_seedlings.mp hchild
  exact ⟨token, htoken, Node.yields_pattern.mpr ⟨id, hmem, hnew, rfl⟩⟩

theorem grounded_seeded (hground : Stage.AllGrounded w [[]] stages) :
    Stage.AllGrounded w [[]] (Stage.extend w vars
      (seedlings id (Stage.final [[]] (stages.take position))) position stages).1 := by
  apply hground.extend
  intro found hfound child hchild
  obtain ⟨token, htoken, hyields⟩ :=
    yields_seedlings hstage hnode hmem vars found hfound child hchild
  exact ⟨token, htoken, Node.child_of_yields hyields⟩

theorem settled_seeded {doubt : Nat → Token → Prop} {new : List Token}
    (hground : Stage.AllGrounded w [[]] stages)
    (h : Stage.AllSettled w vars doubt [[]] stages)
    (hok : (Stage.extend w vars (seedlings id (Stage.final [[]] (stages.take position))) position
      stages).2.outcome = .ok new) :
    Stage.AllSettled w vars
      (fun i token => doubt i token ∧ ¬ (i = position ∧ token.getLast? = some id)) [[]]
      (Stage.extend w vars (seedlings id (Stage.final [[]] (stages.take position))) position
        stages).1 := by
  have hextended := h.extend hground (yields_seedlings hstage hnode hmem vars) hok
  apply hextended.clear position
  . intro found hfound token htoken child hchild hclear
    have hsettled := hextended.at hfound
    apply hsettled token htoken child hchild
    rintro ⟨hdoubt, hnot⟩
    apply hclear
    refine ⟨hdoubt, ?_⟩
    rintro ⟨-, hlast⟩
    rw [Stage.getElem?_extend hstage, Option.some.injEq] at hfound
    rw [← hfound, Stage.node_merge, hnode] at hchild
    obtain ⟨other, -, hnew, rfl⟩ := hchild
    rw [List.getLast?_append, List.getLast?_singleton, Option.some_or, Option.some.injEq] at hlast
    rw [Stage.take_extend] at htoken
    exact hnot ⟨rfl, mem_seedlings.mpr ⟨token, htoken, hlast ▸ hnew, by rw [hlast]⟩⟩
  . rintro i token hi ⟨hdoubt, -⟩
    exact ⟨hdoubt, fun h => hi h.1⟩

end Seedlings

theorem sound_seed {net : Network} (h : net.Sound) (id : Int) (place : String × Nat) :
    net.Keeps (seed id place net).1 ∧ (seed id place net).1.Sound
      ∧ ∀ other, other ≠ place.1 → (seed id place net).1.memory? other = net.memory? other := by
  obtain ⟨rule, position⟩ := place
  cases hmemory : net.memory? rule with
  | none =>
    rw [seed_of_none hmemory]
    exact ⟨.refl net, h, fun _ _ => rfl⟩
  | some memory =>
    rcases seed_cases hmemory id position with
      ⟨heq, -⟩ | ⟨stage, alpha, hstage, hnode, hmem, heq⟩
    . rw [heq]
      exact ⟨.refl net, h, fun _ _ => rfl⟩
    . rw [heq]
      have hreaches := reaches_extend hmemory position
        (seedlings id (Stage.final [[]] (memory.stages.take position)))
      have hnodes := Stage.map_node_extend net.working memory.rule.vars
        (seedlings id (Stage.final [[]] (memory.stages.take position))) position memory.stages
      refine ⟨.of_reaches hmemory hreaches hnodes, ?_, fun _ => hreaches.memory?_other⟩
      exact h.reaches hmemory hreaches hnodes
        (grounded_seeded hstage hnode hmem (h.grounded rule memory hmemory))

theorem settled_seed {net net' : Network} (h : net.Sound) {id : Int} {place : String × Nat}
    {memory : RuleMemory} (hmemory : net.memory? place.1 = some memory)
    {doubt : Nat → Token → Prop} (hsettled : net.Settled place.1 doubt)
    (hok : seed id place net = (net', none)) :
    net'.Settled place.1 fun i token => doubt i token
      ∧ ¬ (Task.seed place).Decides id net.working memory.rule (memory.stages.map (·.node)) i token := by
  obtain ⟨rule, position⟩ := place
  have hname := name_of_memory? hmemory
  have hground := h.grounded rule memory hmemory
  rcases seed_cases hmemory id position with
    ⟨heq, hnone⟩ | ⟨stage, alpha, hstage, hnode, hmem, heq⟩
  . rw [heq, Prod.mk.injEq] at hok
    rw [← hok.1]
    intro found hfound
    simp only at hmemory
    rw [hmemory, Option.some.injEq] at hfound
    subst hfound
    -- No token can end in the fact, since no member of the memory is bound.
    apply (hsettled memory hmemory).clear position
    . intro stage hstage token htoken child hchild hclear
      apply (hsettled memory hmemory).at hstage token htoken child hchild
      intro hdoubt
      apply hclear
      refine ⟨hdoubt, ?_⟩
      rintro ⟨-, hlast, node, hnode, hpattern⟩
      rw [List.getElem?_map, hstage, Option.map_some, Option.some.injEq] at hnode
      rw [← hnode] at hpattern
      obtain ⟨alpha, hshape⟩ := Node.exists_of_isPattern hpattern
      rw [hshape] at hchild
      obtain ⟨other, hmem, -, rfl⟩ := hchild
      rw [List.getLast?_append, List.getLast?_singleton, Option.some_or,
        Option.some.injEq] at hlast
      exact hnone stage hstage alpha hshape (hlast ▸ hmem)
    . intro i token hi hdoubt
      refine ⟨hdoubt, fun hdecides => hi ?_⟩
      exact (Prod.mk.inj hdecides.1).2.symm
  . rw [heq] at hok
    obtain ⟨new, hnew⟩ := extend_ok hmemory hok
    have hreaches := reaches_extend hmemory position
      (seedlings id (Stage.final [[]] (memory.stages.take position)))
    rw [hok] at hreaches
    apply Settled.of_reaches hmemory hreaches
    apply (settled_seeded hstage hnode hmem hground (hsettled memory hmemory) hnew).mono
    rintro i token ⟨hdoubt, hnot⟩
    refine ⟨hdoubt, ?_⟩
    rintro ⟨hplace, hlast, -⟩
    exact hnot ⟨(Prod.mk.inj hplace).2.symm, hlast⟩

/-! ### Tests of tokens whose key has changed -/

theorem reevaluate_of_none {net : Network} {d : Disturbance}
    (h : net.stage? d.rule d.position = none) : reevaluate d net = (net, none) := by
  unfold reevaluate
  rw [h]
  cases net.memory? d.rule <;> rfl

theorem exists_of_stage? {net : Network} {rule : String} {position : Nat} {stage : Stage}
    (h : net.stage? rule position = some stage) :
    ∃ memory, net.memory? rule = some memory ∧ memory.stages[position]? = some stage :=
  Option.bind_eq_some_iff.mp h

theorem sound_reevaluate {net : Network} (h : net.Sound) {d : Disturbance}
    (hsuits : (Task.retest d).Suits net) :
    net.Keeps (reevaluate d net).1 ∧ (reevaluate d net).1.Sound
      ∧ ∀ other, other ≠ d.rule → (reevaluate d net).1.memory? other = net.memory? other := by
  cases hstage : net.stage? d.rule d.position with
  | none =>
    rw [reevaluate_of_none hstage]
    exact ⟨.refl net, h, fun _ _ => rfl⟩
  | some stage =>
    obtain ⟨memory, hmemory, hat⟩ := exists_of_stage? hstage
    have hnode := hsuits stage hstage
    have hground := h.grounded d.rule memory hmemory
    cases hverdicts : (net.verdicts memory.rule.vars stage.node d.key
        (Stage.parents d.position memory.stages)).outcome with
    | error fault =>
      rw [reevaluate_eq_error hmemory hat hverdicts]
      have hreaches := reaches_record net (net.verdicts memory.rule.vars stage.node d.key
        (Stage.parents d.position memory.stages)).log hmemory
      exact ⟨.of_reaches hmemory hreaches rfl, h.reaches hmemory hreaches rfl hground,
        fun _ => hreaches.memory?_other⟩
    | ok found =>
      obtain ⟨passing, failing⟩ := found
      have hreaches := reaches_reevaluate hmemory hat hverdicts
      have hnodes := map_node_retested net.working memory.rule.vars d.position stage passing failing
        memory.stages
      have hdecided := verdicts_ok hnode hverdicts
      rw [Stage.parents_eq_final] at hdecided
      exact ⟨.of_reaches hmemory hreaches hnodes,
        h.reaches hmemory hreaches hnodes (grounded_retested hground hat hnode hdecided),
        fun _ => hreaches.memory?_other⟩

theorem settled_reevaluate {net net' : Network} (h : net.Sound) {id : Int} {d : Disturbance}
    (hsuits : (Task.retest d).Suits net) {memory : RuleMemory}
    (hmemory : net.memory? d.rule = some memory) {doubt : Nat → Token → Prop}
    (hsettled : net.Settled d.rule doubt) (hok : reevaluate d net = (net', none)) :
    net'.Settled d.rule fun i token => doubt i token
      ∧ ¬ (Task.retest d).Decides id net.working memory.rule (memory.stages.map (·.node)) i token := by
  cases hat : memory.stages[d.position]? with
  | none =>
    rw [reevaluate_of_none (by rw [stage?_eq hmemory, hat]), Prod.mk.injEq] at hok
    rw [← hok.1]
    apply hsettled.mono
    intro i token hdoubt
    refine ⟨hdoubt, ?_⟩
    rintro ⟨hplace, node, hnode, -⟩
    rw [← (Prod.mk.inj hplace).2, List.getElem?_map, hat] at hnode
    simp at hnode
  | some stage =>
    have hnode := hsuits stage (by rw [stage?_eq hmemory, hat])
    have hground := h.grounded d.rule memory hmemory
    cases hverdicts : (net.verdicts memory.rule.vars stage.node d.key
        (Stage.parents d.position memory.stages)).outcome with
    | error fault =>
      rw [reevaluate_eq_error hmemory hat hverdicts] at hok
      simp at hok
    | ok found =>
      obtain ⟨passing, failing⟩ := found
      have hreaches := reaches_reevaluate hmemory hat hverdicts
      have hdecided := verdicts_ok hnode hverdicts
      rw [Stage.parents_eq_final] at hdecided
      rw [reevaluate_eq_extend hmemory hat hverdicts] at hok
      -- What fails is dropped and what passes is passed on, both at the stage of the disturbance.
      have hrecord := reaches_record net (net.verdicts memory.rule.vars stage.node d.key
        (Stage.parents d.position memory.stages)).log hmemory
      have hdropped := hrecord.trans (reaches_drop (hrecord.memory?_self hmemory) d.position
        fun token => (failing.filter stage.tokens.contains).contains
          (token.take (Stage.width d.position memory.stages)))
      obtain ⟨new, hnew⟩ := extend_ok (hdropped.memory?_self hmemory) hok
      rw [hdropped.working] at hnew
      rw [← reevaluate_eq_extend hmemory hat hverdicts] at hok
      rw [hok] at hreaches
      apply Settled.of_reaches hmemory hreaches
      apply (settled_retested hground hat hnode hdecided (hsettled memory hmemory) hnew).mono
      rintro i token ⟨hdoubt, hnot⟩
      refine ⟨hdoubt, ?_⟩
      rintro ⟨hplace, node, hat', hasks⟩
      have hi := (Prod.mk.inj hplace).2
      rw [← hi, List.getElem?_map, hat, Option.map_some, Option.some.injEq] at hat'
      exact hnot ⟨hi.symm, hat' ▸ hasks⟩

/-! ### Tasks -/

theorem sound_task {net : Network} (h : net.Sound) (id : Int) {task : Task}
    (hsuits : task.Suits net) :
    net.Keeps (task.run id net).1 ∧ (task.run id net).1.Sound
      ∧ ∀ other, other ≠ task.rule → (task.run id net).1.memory? other = net.memory? other := by
  cases task with
  | seed place => exact sound_seed h id place
  | retest d => exact sound_reevaluate h hsuits

theorem settled_task {net net' : Network} (h : net.Sound) {id : Int} {task : Task}
    (hsuits : task.Suits net) {name : String} {memory : RuleMemory}
    (hmemory : net.memory? name = some memory) {doubt : Nat → Token → Prop}
    (hsettled : net.Settled name doubt) (hok : task.run id net = (net', none)) :
    net'.Settled name fun i token => doubt i token
      ∧ ¬ task.Decides id net.working memory.rule (memory.stages.map (·.node)) i token := by
  by_cases hname : name = task.rule
  . subst hname
    cases task with
    | seed place => exact settled_seed h hmemory hsettled hok
    | retest d => exact settled_reevaluate h hsuits hmemory hsettled hok
  . have hrun := sound_task h id hsuits
    rw [hok] at hrun
    obtain ⟨hkeeps, -, hother⟩ := hrun
    apply (hsettled.frame hkeeps.working (hother name hname)).mono
    intro i token hdoubt
    refine ⟨hdoubt, fun hdecides => hname ?_⟩
    rw [Task.rule_of_decides hdecides, name_of_memory? hmemory]

/-- The tasks that are not done: the one that fails and those behind it. -/
def unfinished (id : Int) : List Task → Network → List Task
  | [], _ => []
  | task :: tasks, net =>
    match task.run id net with
    | (net, none) => unfinished id tasks net
    | (_, some _) => task :: tasks

theorem sound_tasks {net : Network} (h : net.Sound) (id : Int) {tasks : List Task}
    (hsuits : ∀ task ∈ tasks, task.Suits net) :
    net.Keeps (Update.each (Task.run id) tasks net).1
      ∧ (Update.each (Task.run id) tasks net).1.Sound := by
  induction tasks generalizing net with
  | nil => exact ⟨.refl net, h⟩
  | cons task tasks ih =>
    obtain ⟨hkeeps, hsound, -⟩ := sound_task h id (hsuits task (by simp))
    simp only [Update.each, Update.andThen]
    split
    . next net' heq =>
      rw [heq] at hkeeps hsound
      obtain ⟨hkeeps', hsound'⟩ := ih hsound fun other hother =>
        suits_of_keeps hkeeps (hsuits other (by simp [hother]))
      exact ⟨hkeeps.trans hkeeps', hsound'⟩
    . next heq =>
      rw [heq] at hkeeps hsound
      exact ⟨hkeeps, hsound⟩

theorem settled_tasks {net : Network} (h : net.Sound) {id : Int} {tasks : List Task}
    (hsuits : ∀ task ∈ tasks, task.Suits net) {name : String} {memory : RuleMemory}
    (hmemory : net.memory? name = some memory) {doubt : Nat → Token → Prop}
    (hsettled : net.Settled name doubt)
    (hdone : ∀ task ∈ unfinished id tasks net, task.rule ≠ name) :
    (Update.each (Task.run id) tasks net).1.Settled name fun i token => doubt i token
      ∧ ¬ ∃ task ∈ tasks,
        task.Decides id net.working memory.rule (memory.stages.map (·.node)) i token := by
  induction tasks generalizing net doubt memory with
  | nil => exact hsettled.mono fun i token hdoubt => ⟨hdoubt, by simp⟩
  | cons task tasks ih =>
    have htask := sound_task h id (hsuits task (by simp))
    cases hrun : task.run id net with
    | mk net' fault =>
      rw [hrun] at htask
      obtain ⟨hkeeps, hsound, hother⟩ := htask
      cases fault with
      | none =>
        simp only [unfinished, hrun] at hdone
        simp only [Update.each, Update.andThen, hrun]
        have hsettled' := settled_task h (hsuits task (by simp)) hmemory hsettled hrun
        obtain ⟨memory', hmemory'⟩ : ∃ memory', net'.memory? name = some memory' := by
          by_cases hname : name = task.rule
          . apply Option.isSome_iff_exists.mp
            rw [isSome_memory?_of_keeps hkeeps, hmemory]
            rfl
          . exact ⟨memory, by rw [hother name hname, hmemory]⟩
        -- What the tasks behind this one decide is the same before and after it.
        obtain ⟨hrule, hnodes⟩ := map_node_stages hkeeps hmemory hmemory'
        have hrest := ih hsound (fun other hmem =>
          suits_of_keeps hkeeps (hsuits other (by simp [hmem]))) hmemory' hsettled' hdone
        rw [hkeeps.working, hrule, hnodes] at hrest
        apply hrest.mono
        rintro i token ⟨⟨hdoubt, hnot⟩, hnone⟩
        refine ⟨hdoubt, ?_⟩
        rintro ⟨other, hmem, hdecides⟩
        rcases List.mem_cons.mp hmem with rfl | hmem
        . exact hnot hdecides
        . exact hnone ⟨other, hmem, hdecides⟩
      | some fault =>
        simp only [unfinished, hrun] at hdone
        simp only [Update.each, Update.andThen, hrun]
        -- The task that fails and those behind it belong to other rules.
        apply (hsettled.frame hkeeps.working (hother name fun heq => ?_)).mono
        . intro i token hdoubt
          refine ⟨hdoubt, ?_⟩
          rintro ⟨other, hmem, hdecides⟩
          apply hdone other hmem
          rw [Task.rule_of_decides hdecides, name_of_memory? hmemory]
        . exact hdone task (by simp) heq.symm

end Network
end ForwardChaining
