import ForwardChaining.Proofs.Network.Confined

/-!
This module contains what cannot fail: no test of a rule fails for tokens of live facts if no field holds
a set and only integers are aggregated, since a compiled rule reads only variables that are bound. Then
all tasks of the rule are finished, and matching it from scratch has a result.
-/

namespace ForwardChaining

namespace Condition

/-- The node does the work of the condition, and what is contributed to it are integers. -/
structure CarriedOutBy (w : WorkingMemory) (condition : Condition) (node : Node) : Prop where
  implements : node.Implements w.alphas condition
  tracks : node.Tracks w.facts
  exact : node.Exact

section Advance

variable {w : WorkingMemory} (hdistinct : Distinct w.facts)
  (hflat : ∀ fact ∈ w.facts, fact.Flat)

include hdistinct hflat

theorem advance_ok {vars : List String} {token : Token} {node : Node} {condition : Condition}
    (hnode : condition.CarriedOutBy w node) (hlive : w.Live token)
    (huses : ∀ var ∈ condition.uses, var ∈ vars.take token.length) :
    ∃ out, (node.advance w vars token).outcome = .ok out := by
  obtain ⟨bindings, hbindings, hvars, hfacts⟩ := WorkingMemory.bindings_ok hdistinct hlive vars
  have hbound : ∀ var ∈ condition.uses, bindings.Binds var := by
    intro var hvar
    rw [Bindings.Binds, hvars]
    exact huses var hvar
  obtain ⟨himplements, htracks, hexact⟩ := hnode
  cases himplements using Node.Implements.cases with
  | pattern => exact ⟨_, Node.outcome_advance_pattern w vars token _⟩
  | join across =>
    obtain ⟨answer, hanswer⟩ :=
      JoinCondition.holds_ok hbound fun binding hb => hflat binding.2 (hfacts binding hb)
    rw [Node.outcome_advance rfl]
    simp only [Node.verdict, hbindings, Except.bind, hanswer]
    exact ⟨_, rfl⟩
  | negation memory =>
    obtain ⟨key, hkey⟩ := bindingKey_ok fun k hk =>
      hbound k.ref.var (List.mem_map.mpr ⟨k, hk, rfl⟩)
    rw [Node.outcome_advance rfl]
    simp only [Node.verdict, hbindings, Except.bind, hkey]
    exact ⟨_, rfl⟩
  | aggregate memory =>
    obtain ⟨key, hkey⟩ := bindingKey_ok fun k hk =>
      hbound k.ref.var (List.mem_map.mpr ⟨k, hk, rfl⟩)
    obtain ⟨answer, hanswer, -⟩ :=
      AggregateMemory.passes_eq htracks hexact (frozen_bindingKey hkey) (.refl _)
    rw [Node.outcome_advance rfl]
    simp only [Node.verdict, hbindings, Except.bind, hkey, hanswer]
    exact ⟨_, rfl⟩

end Advance

end Condition

namespace Network

/-- No test of the rule can fail. -/
structure Tame (net : Network) (name : String) : Prop where
  flat : ∀ fact ∈ net.working.facts, fact.Flat
  exact : net.Exact name
  scope : ∀ rule ∈ net.ruleSet.rules, rule.name = name → Condition.Scoped [] rule.conditions

theorem Tame.keeps {net net' : Network} {name : String} (h : net.Tame name)
    (hkeeps : net.Keeps net') : net'.Tame name := by
  refine ⟨?_, h.exact.keeps hkeeps, ?_⟩
  . rw [hkeeps.working]
    exact h.flat
  . rw [hkeeps.ruleSet]
    exact h.scope

section Tame

variable {net : Network} (h : net.Sound) {name : String} (htame : net.Tame name)

include h htame

theorem carried {memory : RuleMemory} (hmemory : net.memory? name = some memory) :
    List.Forall₂ (fun c s => Condition.CarriedOutBy net.working c s.node)
      memory.rule.conditions memory.stages := by
  have himplements := h.implements name memory hmemory
  rw [List.forall₂_iff_get] at himplements ⊢
  refine ⟨himplements.1, ?_⟩
  intro i hi hi'
  exact ⟨himplements.2 i hi hi', h.nodes name memory hmemory _ (List.getElem_mem hi'),
    htame.exact memory hmemory _ (List.getElem_mem hi')⟩

theorem Tame.confined : net.Confined (fun _ => False) name := by
  refine ⟨htame.scope, ?_⟩
  intro memory hmemory
  refine (carried h htame hmemory).imp fun condition stage hnode => ⟨hnode.implements, ?_⟩
  intro token hlive huses
  exact .of_ok (Condition.advance_ok h.distinct htame.flat hnode hlive huses)

theorem scope_of_memory {memory : RuleMemory} (hmemory : net.memory? name = some memory) :
    Condition.Scoped [] memory.rule.conditions :=
  scope_of_confined h (htame.confined h) hmemory

theorem extend_tame {memory : RuleMemory} (hmemory : net.memory? name = some memory)
    {position : Nat} {tokens : List Token}
    (hfits : ∀ token ∈ tokens, Condition.Fits net.working
      ((memory.rule.conditions.take (position + 1)).filterMap (·.var?)) token) :
    (net.extend name position tokens).2 = none :=
  (extend_failsWith h (htame.confined h) hmemory hfits).eq_none

end Tame

theorem tasks_tame {net : Network} (h : net.Sound) (id : Int) {tasks : List Task}
    (hsuits : ∀ task ∈ tasks, task.Suits net) (htame : ∀ name, net.Tame name) :
    (Update.each (Task.run id) tasks net).2 = none ∧ unfinished id tasks net = [] := by
  have hnone := (tasks_failsWith h id hsuits fun name => (htame name).confined h).eq_none
  exact ⟨hnone, unfinished_eq_nil hnone⟩

end Network
end ForwardChaining
