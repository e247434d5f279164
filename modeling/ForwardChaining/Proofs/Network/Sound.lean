import ForwardChaining.Proofs.Network.Count
import ForwardChaining.Proofs.Rule.TypeIndex

/-!
This module contains the invariant of the network that holds after every change, whether matching it
failed or not: the nodes do the work of the conditions, all memories are in step with the facts, and
all stages are grounded.
-/

namespace ForwardChaining

namespace Network

/-- The memories are in step with the facts, and no stage holds a token that nothing accounts for. -/
structure Sound (net : Network) : Prop where
  rules : net.memories.map (·.rule) = net.ruleSet.rules
  names : (net.ruleSet.rules.map (·.name)).Nodup
  index : net.ruleSet.index = .build net.ruleSet.rules
  safe : ∀ rule ∈ net.ruleSet.rules, ∀ condition ∈ rule.conditions, condition.Safe
  filters : ∀ alpha ∈ net.working.alphas, alpha.filter.Safe
  distinct : Distinct net.working.facts
  alphas : ∀ alpha ∈ net.working.alphas, alpha.Tracks net.working.facts
  implements : ∀ name memory, net.memory? name = some memory →
    List.Forall₂ (fun c s => s.node.Implements net.working.alphas c)
      memory.rule.conditions memory.stages
  nodes : ∀ name memory, net.memory? name = some memory →
    ∀ stage ∈ memory.stages, stage.node.Tracks net.working.facts
  grounded : ∀ name memory, net.memory? name = some memory →
    Stage.AllGrounded net.working [[]] memory.stages

/-- What is contributed to the aggregates of a rule are integers. -/
def Exact (net : Network) (name : String) : Prop :=
  ∀ memory, net.memory? name = some memory → ∀ stage ∈ memory.stages, stage.node.Exact

/-- The stages of a rule are settled, except for the tokens in doubt. -/
def Settled (net : Network) (name : String) (doubt : Nat → Token → Prop) : Prop :=
  ∀ memory, net.memory? name = some memory →
    Stage.AllSettled net.working memory.rule.vars doubt [[]] memory.stages

/-- A step that changes nothing but tokens and the agenda. -/
structure Keeps (net net' : Network) : Prop where
  ruleSet : net'.ruleSet = net.ruleSet
  working : net'.working = net.working
  fired : net'.fired = net.fired
  rules : net'.memories.map (·.rule) = net.memories.map (·.rule)
  nodes : ∀ name memory', net'.memory? name = some memory' →
    ∃ memory, net.memory? name = some memory ∧ memory'.rule = memory.rule
      ∧ memory'.stages.map (·.node) = memory.stages.map (·.node)

namespace Keeps

theorem refl (net : Network) : net.Keeps net :=
  ⟨rfl, rfl, rfl, rfl, fun _ memory h => ⟨memory, h, rfl, rfl⟩⟩

theorem trans {net net' net'' : Network} (h : net.Keeps net') (h' : net'.Keeps net'') :
    net.Keeps net'' := by
  refine ⟨h'.ruleSet.trans h.ruleSet, h'.working.trans h.working, h'.fired.trans h.fired,
    h'.rules.trans h.rules, ?_⟩
  intro name memory'' hmemory''
  obtain ⟨memory', hmemory', hrule', hnodes'⟩ := h'.nodes name memory'' hmemory''
  obtain ⟨memory, hmemory, hrule, hnodes⟩ := h.nodes name memory' hmemory'
  exact ⟨memory, hmemory, hrule'.trans hrule, hnodes'.trans hnodes⟩

theorem of_reaches {net net' : Network} {rule : String} {memory : RuleMemory}
    {stages : List Stage} (hmemory : net.memory? rule = some memory)
    (h : net.Reaches rule stages net')
    (hnodes : stages.map (·.node) = memory.stages.map (·.node)) : net.Keeps net' := by
  refine ⟨h.ruleSet, h.working, h.fired, h.rules, ?_⟩
  intro name memory' hmemory'
  by_cases hname : name = rule
  . subst hname
    rw [h.memory?_self hmemory, Option.some.injEq] at hmemory'
    subst hmemory'
    exact ⟨memory, hmemory, rfl, hnodes⟩
  . rw [h.memory?_other hname] at hmemory'
    exact ⟨memory', hmemory', rfl, rfl⟩

end Keeps

theorem isSome_memory? (net : Network) (name : String) :
    (net.memory? name).isSome = (net.memories.map (·.rule)).any (·.name = name) := by
  unfold memory?
  rw [Bool.eq_iff_iff, List.find?_isSome]
  simp

theorem isSome_memory?_of_keeps {net net' : Network} (h : net.Keeps net') (name : String) :
    (net'.memory? name).isSome = (net.memory? name).isSome := by
  rw [isSome_memory?, isSome_memory?, h.rules]

theorem map_node_retested (w : WorkingMemory) (vars : List String) (position : Nat)
    (stage : Stage) (passing failing : List Token) (stages : List Stage) :
    (retested w vars position stage passing failing stages).1.map (·.node)
      = stages.map (·.node) := by
  unfold retested
  rw [Stage.map_node_extend, Stage.map_node_drop]

theorem forall₂_of_map_node {R : Condition → Node → Prop} {conditions : List Condition}
    {stages stages' : List Stage} (hnodes : stages'.map (·.node) = stages.map (·.node))
    (h : List.Forall₂ (fun c s => R c s.node) conditions stages) :
    List.Forall₂ (fun c s => R c s.node) conditions stages' := by
  rw [← List.forall₂_map_right_iff (f := Stage.node)] at h ⊢
  rw [hnodes]
  exact h

theorem forall_of_map_node {P : Node → Prop} {stages stages' : List Stage}
    (hnodes : stages'.map (·.node) = stages.map (·.node))
    (h : ∀ stage ∈ stages, P stage.node) : ∀ stage ∈ stages', P stage.node := by
  intro stage' hstage'
  have hmem : stage'.node ∈ stages.map (·.node) := by
    rw [← hnodes]
    exact List.mem_map.mpr ⟨stage', hstage', rfl⟩
  obtain ⟨stage, hstage, heq⟩ := List.mem_map.mp hmem
  rw [← heq]
  exact h stage hstage

theorem Exact.keeps {net net' : Network} {name : String} (h : net.Exact name)
    (hkeeps : net.Keeps net') : net'.Exact name := by
  intro memory' hmemory'
  obtain ⟨memory, hmemory, -, hnodes⟩ := hkeeps.nodes name memory' hmemory'
  exact forall_of_map_node hnodes (h memory hmemory)

theorem Settled.mono {net : Network} {name : String} {doubt doubt' : Nat → Token → Prop}
    (h : net.Settled name doubt) (hdoubt : ∀ i token, doubt i token → doubt' i token) :
    net.Settled name doubt' :=
  fun memory hmemory => (h memory hmemory).mono hdoubt

theorem Settled.frame {net net' : Network} {name : String} {doubt : Nat → Token → Prop}
    (h : net.Settled name doubt) (hworking : net'.working = net.working)
    (hmemory : net'.memory? name = net.memory? name) : net'.Settled name doubt := by
  intro memory hmem
  rw [hmemory] at hmem
  rw [hworking]
  exact h memory hmem

theorem memory?_of_mem {net : Network} (h : net.Sound) {memory : RuleMemory}
    (hmemory : memory ∈ net.memories) : net.memory? memory.rule.name = some memory := by
  have hnames : (net.memories.map (·.rule.name)).Nodup := by
    have hnames := h.names
    rw [← h.rules, List.map_map] at hnames
    exact hnames
  cases hfound : net.memory? memory.rule.name with
  | none =>
    have hnone := List.find?_eq_none.mp hfound memory hmemory
    simp at hnone
  | some found =>
    rw [Option.some.injEq]
    exact List.inj_on_of_nodup_map hnames (List.mem_of_find?_eq_some hfound) hmemory
      (name_of_memory? hfound)

theorem Sound.frame {net net' : Network} (h : net.Sound) (hruleSet : net'.ruleSet = net.ruleSet)
    (hworking : net'.working = net.working) (hmemories : net'.memories = net.memories) :
    net'.Sound := by
  cases net
  cases net'
  simp only at hruleSet hworking hmemories
  subst hruleSet hworking hmemories
  exact ⟨h.rules, h.names, h.index, h.safe, h.filters, h.distinct, h.alphas, h.implements, h.nodes,
    h.grounded⟩

theorem Sound.keeps {net net' : Network} (h : net.Sound) (hkeeps : net.Keeps net')
    (hgrounded : ∀ name memory, net'.memory? name = some memory →
      Stage.AllGrounded net'.working [[]] memory.stages) : net'.Sound := by
  refine ⟨?_, ?_, ?_, ?_, ?_, ?_, ?_, ?_, ?_, hgrounded⟩
  . rw [hkeeps.rules, hkeeps.ruleSet]
    exact h.rules
  . rw [hkeeps.ruleSet]
    exact h.names
  . rw [hkeeps.ruleSet]
    exact h.index
  . rw [hkeeps.ruleSet]
    exact h.safe
  . rw [hkeeps.working]
    exact h.filters
  . rw [hkeeps.working]
    exact h.distinct
  . rw [hkeeps.working]
    exact h.alphas
  . intro name memory' hmemory'
    obtain ⟨memory, hmemory, hrule, hnodes⟩ := hkeeps.nodes name memory' hmemory'
    rw [hkeeps.working, hrule]
    exact forall₂_of_map_node hnodes (h.implements name memory hmemory)
  . intro name memory' hmemory'
    obtain ⟨memory, hmemory, -, hnodes⟩ := hkeeps.nodes name memory' hmemory'
    rw [hkeeps.working]
    exact forall_of_map_node hnodes (h.nodes name memory hmemory)

theorem Sound.reaches {net net' : Network} (h : net.Sound) {rule : String} {memory : RuleMemory}
    {stages : List Stage} (hmemory : net.memory? rule = some memory)
    (hreaches : net.Reaches rule stages net')
    (hnodes : stages.map (·.node) = memory.stages.map (·.node))
    (hgrounded : Stage.AllGrounded net.working [[]] stages) : net'.Sound := by
  apply h.keeps (.of_reaches hmemory hreaches hnodes)
  intro name memory' hmemory'
  rw [hreaches.working]
  by_cases hname : name = rule
  . subst hname
    rw [hreaches.memory?_self hmemory, Option.some.injEq] at hmemory'
    subst hmemory'
    exact hgrounded
  . rw [hreaches.memory?_other hname] at hmemory'
    exact h.grounded name memory' hmemory'

theorem Settled.of_reaches {net net' : Network} {rule : String} {memory : RuleMemory}
    {stages : List Stage} (hmemory : net.memory? rule = some memory)
    (hreaches : net.Reaches rule stages net') {doubt : Nat → Token → Prop}
    (h : Stage.AllSettled net.working memory.rule.vars doubt [[]] stages) :
    net'.Settled rule doubt := by
  intro memory' hmemory'
  rw [hreaches.memory?_self hmemory, Option.some.injEq] at hmemory'
  rw [← hmemory', hreaches.working]
  exact h

end Network
end ForwardChaining
