import ForwardChaining.Proofs.Network.Delivery
import ForwardChaining.Proofs.Rule.Compile

/-!
This module contains the network of a rule set before any fact has come: its nodes do the work of the
conditions, patterns whose filters have one identity share a memory, and the stages are settled.
-/

namespace ForwardChaining

/-- The filter of a pattern of some rules. -/
def IsPatternOf (rules : List Rule) (filter : FactFilter) : Prop :=
  ∃ rule ∈ rules, ∃ var, .pattern filter var ∈ rule.conditions

namespace Node

/-- The memory of the node is that of no facts. -/
def Fresh (node : Node) : Prop :=
  node.Tracks [] ∧ node.Exact

end Node

namespace Network

/-- The shared memories after some conditions got theirs. -/
structure Shared (filters : FactFilter → Prop) (alphas alphas' : List AlphaMemory) : Prop where
  front : alphas.IsPrefix alphas'
  new : ∀ alpha ∈ alphas', alpha ∈ alphas ∨ (alpha.members = [] ∧ filters alpha.filter)

namespace Shared

variable {filters filters' : FactFilter → Prop} {alphas alphas' alphas'' : List AlphaMemory}

theorem refl (filters : FactFilter → Prop) (alphas : List AlphaMemory) :
    Shared filters alphas alphas :=
  ⟨List.prefix_refl _, fun _ h => .inl h⟩

theorem trans (h : Shared filters alphas alphas') (h' : Shared filters alphas' alphas'') :
    Shared filters alphas alphas'' := by
  refine ⟨h.front.trans h'.front, ?_⟩
  intro alpha halpha
  rcases h'.new alpha halpha with hold | hnew
  . exact h.new alpha hold
  . exact .inr hnew

theorem mono (hfilters : ∀ filter, filters filter → filters' filter)
    (h : Shared filters alphas alphas') : Shared filters' alphas alphas' := by
  refine ⟨h.front, ?_⟩
  intro alpha halpha
  rcases h.new alpha halpha with hold | ⟨hmembers, hfilter⟩
  . exact .inl hold
  . exact .inr ⟨hmembers, hfilters _ hfilter⟩

end Shared

theorem shared_share (filter : FactFilter) (alphas : List AlphaMemory) :
    Shared (· = filter) alphas (share filter alphas).2
      ∧ ∃ memory, (share filter alphas).2[(share filter alphas).1]? = some memory
        ∧ memory.filter.identity = filter.identity := by
  unfold share
  split
  . next i hfind =>
    obtain ⟨hi, hidentity, -⟩ := List.findIdx?_eq_some_iff_getElem.mp hfind
    exact ⟨.refl _ _, alphas[i], List.getElem?_eq_getElem hi, by simpa using hidentity⟩
  . refine ⟨⟨List.prefix_append _ _, ?_⟩, { filter }, by simp, rfl⟩
    intro alpha halpha
    rw [List.mem_append, List.mem_singleton] at halpha
    rcases halpha with hold | rfl
    . exact .inl hold
    . exact .inr ⟨rfl, rfl⟩

theorem shared_nodeOf (alphas : List AlphaMemory) (condition : Condition) :
    Shared (fun filter => ∃ var, .pattern filter var = condition) alphas
        (nodeOf alphas condition).2
      ∧ (nodeOf alphas condition).1.Implements (nodeOf alphas condition).2 condition
      ∧ (nodeOf alphas condition).1.Fresh := by
  cases condition with
  | pattern filter var =>
    obtain ⟨hshared, hmemory⟩ := shared_share filter alphas
    exact ⟨hshared.mono fun other heq => ⟨var, by rw [heq]⟩, hmemory, trivial, trivial⟩
  | join across => exact ⟨.refl _ _, rfl, trivial, trivial⟩
  | negation filter keys =>
    refine ⟨.refl _ _, ⟨rfl, rfl⟩, ⟨rfl, .nil, ?_, ?_⟩, trivial⟩
    . intro key _ n hn
      cases hn
    . intro key _
      rfl
  | aggregate filter keys test =>
    refine ⟨.refl _ _, ⟨rfl, rfl, rfl⟩, ⟨rfl, .nil, ?_, ?_⟩, ⟨by simp, ?_⟩⟩
    . intro key _
      rfl
    . intro key _ entry hentry
      cases hentry
    . intro key _ group hgroup
      cases hgroup

/-- Stages without tokens that do the work of some conditions. -/
structure Ready (alphas : List AlphaMemory) (conditions : List Condition) (stages : List Stage) :
    Prop where
  implements : List.Forall₂ (fun c s => s.node.Implements alphas c) conditions stages
  fresh : ∀ stage ∈ stages, stage.node.Fresh ∧ stage.tokens = []

theorem Ready.front {alphas alphas' : List AlphaMemory} (h : alphas.IsPrefix alphas')
    {conditions : List Condition} {stages : List Stage} (hready : Ready alphas conditions stages) :
    Ready alphas' conditions stages :=
  ⟨hready.implements.imp fun _ _ => Node.implements_of_filters (h.map _), hready.fresh⟩

theorem shared_stagesOf (alphas : List AlphaMemory) (conditions : List Condition) :
    Shared (fun filter => ∃ var, .pattern filter var ∈ conditions) alphas
        (stagesOf alphas conditions).2
      ∧ Ready (stagesOf alphas conditions).2 conditions (stagesOf alphas conditions).1 := by
  induction conditions generalizing alphas with
  | nil => exact ⟨.refl _ _, .nil, by simp [stagesOf]⟩
  | cons condition conditions ih =>
    obtain ⟨hnode, himplements, hfresh⟩ := shared_nodeOf alphas condition
    obtain ⟨hstages, hready⟩ := ih (nodeOf alphas condition).2
    simp only [stagesOf]
    refine ⟨(hnode.mono ?_).trans (hstages.mono ?_), ?_, ?_⟩
    . rintro filter ⟨var, rfl⟩
      exact ⟨var, by simp⟩
    . rintro filter ⟨var, hmem⟩
      exact ⟨var, by simp [hmem]⟩
    . exact .cons (Node.implements_of_filters (hstages.front.map _) himplements) hready.implements
    . rw [List.forall_mem_cons]
      exact ⟨⟨hfresh, rfl⟩, hready.fresh⟩

theorem shared_memoriesOf (alphas : List AlphaMemory) (rules : List Rule) :
    Shared (IsPatternOf rules) alphas (memoriesOf alphas rules).2
      ∧ (memoriesOf alphas rules).1.map (·.rule) = rules
      ∧ ∀ memory ∈ (memoriesOf alphas rules).1,
          Ready (memoriesOf alphas rules).2 memory.rule.conditions memory.stages := by
  induction rules generalizing alphas with
  | nil => exact ⟨.refl _ _, rfl, by simp [memoriesOf]⟩
  | cons rule rules ih =>
    obtain ⟨hstages, hready⟩ := shared_stagesOf alphas rule.conditions
    obtain ⟨hmemories, hrules, hall⟩ := ih (stagesOf alphas rule.conditions).2
    simp only [memoriesOf]
    refine ⟨(hstages.mono ?_).trans (hmemories.mono ?_), by simp [hrules], ?_⟩
    . rintro filter ⟨var, hmem⟩
      exact ⟨rule, by simp, var, hmem⟩
    . rintro filter ⟨other, hother, hmem⟩
      exact ⟨other, by simp [hother], hmem⟩
    . rw [List.forall_mem_cons]
      exact ⟨hready.front hmemories.front, hall⟩

/-- The network of a rule set before its rules are matched against nothing. -/
def blank (ruleSet : RuleSet) : Network :=
  let (memories, alphas) := memoriesOf [] ruleSet.rules
  { ruleSet, memories, working.alphas := alphas }

theorem ofRuleSet_eq (ruleSet : RuleSet) :
    ofRuleSet ruleSet = Update.each start ruleSet.rules (blank ruleSet) :=
  rfl

section Blank

variable {ruleSet : RuleSet} {name : String} {memory : RuleMemory}

theorem ready_of_blank (hmemory : (blank ruleSet).memory? name = some memory) :
    Ready (blank ruleSet).working.alphas memory.rule.conditions memory.stages :=
  (shared_memoriesOf [] ruleSet.rules).2.2 memory (List.mem_of_find?_eq_some hmemory)

theorem patterns_of_blank : ∀ alpha ∈ (blank ruleSet).working.alphas,
    alpha.members = [] ∧ IsPatternOf ruleSet.rules alpha.filter := by
  intro alpha halpha
  rcases (shared_memoriesOf [] ruleSet.rules).1.new alpha halpha with hold | hnew
  . simp at hold
  . exact hnew

theorem grounded_of_empty {w : WorkingMemory} {stages : List Stage}
    (h : ∀ stage ∈ stages, stage.tokens = []) (parents : List Token) :
    Stage.AllGrounded w parents stages := by
  induction stages generalizing parents with
  | nil => trivial
  | cons stage stages ih =>
    refine ⟨?_, ih (fun other hother => h other (by simp [hother])) _⟩
    have hempty := h stage (by simp)
    exact ⟨by rw [hempty]; exact .nil, by simp [hempty]⟩

theorem settled_of_empty {w : WorkingMemory} {vars : List String} {stages : List Stage}
    (h : ∀ stage ∈ stages, stage.tokens = []) (doubt : Nat → Token → Prop) :
    Stage.AllSettled w vars doubt [] stages := by
  induction stages generalizing doubt with
  | nil => trivial
  | cons stage stages ih =>
    refine ⟨by intro token htoken; simp at htoken, ?_⟩
    rw [h stage (by simp)]
    exact ih (fun other hother => h other (by simp [hother])) _

theorem sound_blank (h : ruleSet.WellFormed) : (blank ruleSet).Sound := by
  obtain ⟨-, hrules, -⟩ := shared_memoriesOf [] ruleSet.rules
  refine ⟨hrules, h.names, h.index, h.safe, ?_, .nil, ?_, ?_, ?_, ?_⟩
  . intro alpha halpha
    obtain ⟨-, rule, hrule, var, hmem⟩ := patterns_of_blank alpha halpha
    exact h.safe rule hrule _ hmem alpha.filter rfl
  . intro alpha halpha
    exact (patterns_of_blank alpha halpha).1
  . intro name memory hmemory
    exact (ready_of_blank hmemory).implements
  . intro name memory hmemory stage hstage
    exact ((ready_of_blank hmemory).fresh stage hstage).1.1
  . intro name memory hmemory
    exact grounded_of_empty (fun stage hstage => ((ready_of_blank hmemory).fresh stage hstage).2) _

theorem tame_blank (h : ruleSet.WellFormed) (name : String) : (blank ruleSet).Tame name := by
  refine ⟨?_, ?_, fun rule hrule _ => h.scope rule hrule⟩
  . intro fact hfact
    change fact ∈ [] at hfact
    simp at hfact
  . intro memory hmemory stage hstage
    exact ((ready_of_blank hmemory).fresh stage hstage).1.2

end Blank

/-- The first condition of the rule yields a token for nothing, and the token may not be there yet. -/
def Awaited (net : Network) (name : String) (i : Nat) (token : Token) : Prop :=
  i = 0 ∧ ∃ memory stage, net.memory? name = some memory ∧ memory.stages[0]? = some stage
    ∧ stage.node.Yields net.working memory.rule.vars [] token

theorem awaited_blank (ruleSet : RuleSet) (name : String) :
    (blank ruleSet).Settled name ((blank ruleSet).Awaited name) := by
  intro memory hmemory
  have hempty : ∀ stage ∈ memory.stages, stage.tokens = [] :=
    fun stage hstage => ((ready_of_blank hmemory).fresh stage hstage).2
  cases hstages : memory.stages with
  | nil => trivial
  | cons stage stages =>
    rw [hstages] at hempty
    constructor
    . intro token htoken child _ hclear
      rw [hempty stage (by simp)]
      refine iff_of_false (by simp) ?_
      intro hyields
      rw [List.mem_singleton.mp htoken] at hyields
      exact hclear ⟨rfl, memory, stage, hmemory, by rw [hstages]; rfl, hyields⟩
    . rw [hempty stage (by simp)]
      exact settled_of_empty (fun other hother => hempty other (by simp [hother])) _

theorem start_eq_activate {net : Network} {rule : Rule} {memory : RuleMemory}
    (hmemory : net.memory? rule.name = some memory) (hstages : memory.stages = []) :
    start rule net = net.activate rule [] := by
  unfold start
  rw [stage?_eq hmemory, hstages]
  rfl

theorem start_eq_extend {net : Network} {rule : Rule} {memory : RuleMemory}
    (hmemory : net.memory? rule.name = some memory) {stage : Stage} {stages : List Stage}
    (hstages : memory.stages = stage :: stages) {tokens : List Token}
    (hok : (stage.node.advance net.working rule.vars []).outcome = .ok tokens) :
    start rule net = (net.record (stage.node.advance net.working rule.vars []).log).extend
      rule.name 0 tokens := by
  unfold start
  rw [stage?_eq hmemory, hstages]
  simp only [List.getElem?_cons_zero, hok]

section Started

variable {net : Network} {name : String} {memory : RuleMemory} {stage : Stage} {tokens : List Token}
  (h : net.Sound) (hmemory : net.memory? name = some memory)
  (hstage : memory.stages[0]? = some stage)

include h hmemory hstage

theorem first_advance_ok (htame : net.Tame name) :
    ∃ tokens, (stage.node.advance net.working memory.rule.vars []).outcome = .ok tokens := by
  have hmem := List.mem_of_getElem? hstage
  obtain ⟨-, condition, hcondition, himplements, -⟩ := h.exists_condition hmemory hstage
  apply Condition.advance_ok h.distinct htame.flat _ WorkingMemory.live_nil
  . intro var hvar
    have hnone := Condition.uses_of_scoped (scope_of_memory h htame hmemory) hcondition var hvar
    simp at hnone
  . exact ⟨himplements, h.nodes name memory hmemory stage hmem, htame.exact memory hmemory stage hmem⟩

variable (hok : (stage.node.advance net.working memory.rule.vars []).outcome = .ok tokens)

include hok

omit h hmemory in
theorem yields_first : ∀ found, memory.stages[0]? = some found → ∀ child ∈ tokens,
    ∃ token ∈ Stage.final [[]] (memory.stages.take 0),
      found.node.Yields net.working memory.rule.vars token child := by
  intro found hfound child hchild
  rw [hstage, Option.some.injEq] at hfound
  rw [← hfound]
  exact ⟨[], List.mem_singleton.mpr rfl, tokens, hok, hchild⟩

theorem grounded_started : Stage.AllGrounded net.working [[]]
    (Stage.extend net.working memory.rule.vars tokens 0 memory.stages).1 := by
  apply (h.grounded name memory hmemory).extend
  intro found hfound child hchild
  obtain ⟨token, htoken, hyields⟩ := yields_first hstage hok found hfound child hchild
  exact ⟨token, htoken, Node.child_of_yields hyields⟩

theorem fits_first : ∀ token ∈ tokens, Condition.Fits net.working
    ((memory.rule.conditions.take (0 + 1)).filterMap (·.var?)) token := by
  intro token htoken
  obtain ⟨parent, hparent, hyields⟩ := yields_first hstage hok stage hstage token htoken
  exact fits_children h hmemory hstage hparent (Node.child_of_yields hyields)

theorem settled_started (hawaited : net.Settled name (net.Awaited name)) {new : List Token}
    (hnew : (Stage.extend net.working memory.rule.vars tokens 0 memory.stages).2.outcome = .ok new) :
    Stage.AllSettled net.working memory.rule.vars (fun _ _ => False) [[]]
      (Stage.extend net.working memory.rule.vars tokens 0 memory.stages).1 := by
  apply ((hawaited memory hmemory).extend (h.grounded name memory hmemory)
    (yields_first hstage hok) hnew).mono
  rintro i token ⟨⟨rfl, other, first, hother, hfirst, out, hout, hmem⟩, hnot⟩
  rw [hmemory, Option.some.injEq] at hother
  subst hother
  rw [hstage, Option.some.injEq] at hfirst
  rw [← hfirst, hok, Except.ok.injEq] at hout
  exact hnot ⟨rfl, hout ▸ hmem⟩

end Started

theorem settled_start {net : Network} (h : net.Sound) {rule : Rule} {memory : RuleMemory}
    (hmemory : net.memory? rule.name = some memory) (hrule : memory.rule = rule)
    (htame : net.Tame rule.name) (hawaited : net.Settled rule.name (net.Awaited rule.name)) :
    (start rule net).2 = none ∧ net.Keeps (start rule net).1 ∧ (start rule net).1.Sound
      ∧ (∀ other, other ≠ rule.name → (start rule net).1.memory? other = net.memory? other)
      ∧ (start rule net).1.Settled rule.name fun _ _ => False := by
  subst hrule
  have hground := h.grounded _ memory hmemory
  cases hstages : memory.stages with
  | nil =>
    rw [start_eq_activate hmemory hstages]
    have hreaches := reaches_activate memory.rule [] net hmemory
    refine ⟨activate_ok h.distinct memory.rule WorkingMemory.live_nil,
      .of_reaches hmemory hreaches rfl, h.reaches hmemory hreaches rfl hground,
      fun _ => hreaches.memory?_other, .of_reaches hmemory hreaches ?_⟩
    rw [hstages]
    trivial
  | cons stage stages =>
    have hstage : memory.stages[0]? = some stage := by
      rw [hstages]
      rfl
    obtain ⟨tokens, hok⟩ := first_advance_ok h hmemory hstage htame
    rw [start_eq_extend hmemory hstages hok]
    generalize (stage.node.advance net.working memory.rule.vars []).log = entries
    have hrecord := reaches_record net entries hmemory
    have hmemory' := hrecord.memory?_self hmemory
    have hreaches := hrecord.trans (reaches_extend hmemory' 0 tokens)
    have hfits := fits_first h hmemory hstage hok
    have hnone := extend_tame (h.reaches hmemory hrecord rfl hground)
      (htame.keeps (.of_reaches hmemory hrecord rfl)) hmemory' hfits
    have hnodes := Stage.map_node_extend net.working memory.rule.vars tokens 0 memory.stages
    obtain ⟨new, hnew⟩ := extend_ok hmemory' (Prod.ext rfl hnone)
    exact ⟨hnone, .of_reaches hmemory hreaches hnodes,
      h.reaches hmemory hreaches hnodes (grounded_started h hmemory hstage hok),
      fun _ => hreaches.memory?_other,
      .of_reaches hmemory hreaches (settled_started h hmemory hstage hok hawaited hnew)⟩

theorem awaited_of_memory? {net net' : Network} {name : String}
    (hworking : net'.working = net.working) (hmemory : net'.memory? name = net.memory? name)
    (h : net.Settled name (net.Awaited name)) : net'.Settled name (net'.Awaited name) := by
  apply (h.frame hworking hmemory).mono
  rintro i token ⟨hi, memory, stage, hfound, hrest⟩
  refine ⟨hi, memory, stage, by rw [hmemory, hfound], ?_⟩
  rw [hworking]
  exact hrest

theorem settled_starts {net : Network} (h : net.Sound) (htame : ∀ name, net.Tame name)
    {rules : List Rule} (hnames : (rules.map (·.name)).Nodup)
    (hrules : ∀ rule ∈ rules, ∃ memory, net.memory? rule.name = some memory ∧ memory.rule = rule)
    (hawaited : ∀ rule ∈ rules, net.Settled rule.name (net.Awaited rule.name)) :
    (Update.each start rules net).2 = none ∧ net.Keeps (Update.each start rules net).1
      ∧ (Update.each start rules net).1.Sound
      ∧ (∀ other, other ∉ rules.map (·.name) →
          (Update.each start rules net).1.memory? other = net.memory? other)
      ∧ ∀ rule ∈ rules, (Update.each start rules net).1.Settled rule.name fun _ _ => False := by
  induction rules generalizing net with
  | nil => exact ⟨rfl, .refl net, h, fun _ _ => rfl, by simp⟩
  | cons rule rules ih =>
    rw [List.map_cons, List.nodup_cons] at hnames
    obtain ⟨memory, hmemory, hrule⟩ := hrules rule (by simp)
    obtain ⟨hok, hkeeps, hsound, hother, hsettled⟩ :=
      settled_start h hmemory hrule (htame rule.name) (hawaited rule (by simp))
    simp only [Update.each, Update.andThen]
    cases hstart : start rule net with
    | mk net' fault =>
    rw [hstart] at hok hkeeps hsound hother hsettled
    simp only at hok hkeeps hsound hother hsettled
    subst hok
    have hne : ∀ other ∈ rules, other.name ≠ rule.name := by
      intro other hmem heq
      exact hnames.1 (heq ▸ List.mem_map.mpr ⟨other, hmem, rfl⟩)
    have hrules' : ∀ other ∈ rules,
        ∃ memory, net'.memory? other.name = some memory ∧ memory.rule = other := by
      intro other hmem
      rw [hother other.name (hne other hmem)]
      exact hrules other (by simp [hmem])
    have hawaited' : ∀ other ∈ rules, net'.Settled other.name (net'.Awaited other.name) := by
      intro other hmem
      exact awaited_of_memory? hkeeps.working (hother other.name (hne other hmem))
        (hawaited other (by simp [hmem]))
    obtain ⟨hok', hkeeps', hsound', hother', hsettled'⟩ :=
      ih hsound (fun name => (htame name).keeps hkeeps) hnames.2 hrules' hawaited'
    refine ⟨hok', hkeeps.trans hkeeps', hsound', ?_, ?_⟩
    . intro other hnot
      rw [List.map_cons, List.mem_cons, not_or] at hnot
      rw [hother' other hnot.2, hother other hnot.1]
    . rw [List.forall_mem_cons]
      refine ⟨?_, hsettled'⟩
      exact hsettled.frame hkeeps'.working (hother' rule.name hnames.1)

theorem start_settled {ruleSet : RuleSet} (h : ruleSet.WellFormed) :
    (ofRuleSet ruleSet).2 = none ∧ (ofRuleSet ruleSet).1.Sound
      ∧ (blank ruleSet).Keeps (ofRuleSet ruleSet).1
      ∧ ∀ name, (ofRuleSet ruleSet).1.Settled name fun _ _ => False := by
  rw [ofRuleSet_eq]
  obtain ⟨-, hrules, -⟩ := shared_memoriesOf [] ruleSet.rules
  have hfound : ∀ rule ∈ ruleSet.rules,
      ∃ memory, (blank ruleSet).memory? rule.name = some memory ∧ memory.rule = rule := by
    intro rule hrule
    obtain ⟨memory, hmemory⟩ : ∃ memory, (blank ruleSet).memory? rule.name = some memory := by
      rw [← Option.isSome_iff_exists, isSome_memory?]
      change ((memoriesOf [] ruleSet.rules).1.map (·.rule)).any _ = true
      rw [hrules, List.any_eq_true]
      exact ⟨rule, hrule, by simp⟩
    refine ⟨memory, hmemory, ?_⟩
    apply List.inj_on_of_nodup_map h.names _ hrule (name_of_memory? hmemory)
    rw [← hrules]
    exact List.mem_map.mpr ⟨memory, List.mem_of_find?_eq_some hmemory, rfl⟩
  obtain ⟨hok, hkeeps, hsound, -, hsettled⟩ := settled_starts (sound_blank h) (tame_blank h)
    h.names hfound fun rule _ => awaited_blank ruleSet rule.name
  refine ⟨hok, hsound, hkeeps, ?_⟩
  intro name memory hmemory
  have hrule : memory.rule ∈ ruleSet.rules := by
    rw [← hrules]
    change memory.rule ∈ (blank ruleSet).memories.map (·.rule)
    rw [← hkeeps.rules]
    exact List.mem_map.mpr ⟨memory, List.mem_of_find?_eq_some hmemory, rfl⟩
  have hname := name_of_memory? hmemory
  subst hname
  exact hsettled memory.rule hrule memory hmemory

end Network
end ForwardChaining
