import ForwardChaining.Proofs.Network.Scope
import ForwardChaining.Proofs.Rule.Scope

/-!
This module contains what the tokens of a rule bind: each variable to a fact of the type of its pattern. So
the facts and the values that a match shows to an action can be had, and they are what the compiler took
them for.
-/

namespace ForwardChaining

/-- The token holds a fact of the right type for each variable. -/
def Bound.Covers (facts : List Fact) (bound : Bound) (token : Token) : Prop :=
  List.Forall₂ (fun entry id => ∃ fact ∈ facts, fact.id = id ∧ fact.type = entry.2) bound token

/-- Each variable is bound to one of the facts, of the right type. -/
def Bindings.Fit (facts : List Fact) (bound : Bound) (bindings : Bindings) : Prop :=
  List.Forall₂ (fun entry binding =>
    binding.1 = entry.1 ∧ binding.2 ∈ facts ∧ binding.2.type = entry.2) bound bindings

namespace Bindings

variable {facts : List Fact} {bound : Bound} {bindings : Bindings}

theorem Fit.map_fst (h : bindings.Fit facts bound) : bindings.map (·.1) = bound.map (·.1) := by
  induction h with
  | nil => rfl
  | cons hfirst _ ih => rw [List.map_cons, List.map_cons, hfirst.1, ih]

theorem Fit.mem (h : bindings.Fit facts bound) {binding : String × Fact}
    (hbinding : binding ∈ bindings) :
    ∃ entry ∈ bound, binding.1 = entry.1 ∧ binding.2 ∈ facts ∧ binding.2.type = entry.2 := by
  induction h with
  | nil => cases hbinding
  | cons hfirst _ ih =>
    rcases List.mem_cons.mp hbinding with rfl | hrest
    . exact ⟨_, List.mem_cons_self, hfirst⟩
    . obtain ⟨entry, hentry, hfits⟩ := ih hrest
      exact ⟨entry, List.mem_cons_of_mem _ hentry, hfits⟩

theorem Fit.lookup (h : bindings.Fit facts bound) (hdistinct : (bound.map (·.1)).Nodup)
    {var type : String} (hentry : (var, type) ∈ bound) :
    ∃ fact ∈ facts, bindings.lookup var = some fact ∧ fact.type = type := by
  have hbinds : bindings.Binds var := by
    rw [Binds, h.map_fst]
    exact List.mem_map.mpr ⟨_, hentry, rfl⟩
  obtain ⟨fact, hlookup, hmem⟩ := hbinds.lookup
  obtain ⟨entry, hentry', hvar, hfact, htype⟩ := h.mem hmem
  have hsame : entry = (var, type) := List.inj_on_of_nodup_map hdistinct hentry' hentry hvar.symm
  exact ⟨fact, hfact, hlookup, by rw [htype, hsame]⟩

end Bindings

theorem Bound.Covers.bindings {w : WorkingMemory} (hdistinct : Distinct w.facts) {bound : Bound}
    {token : Token} (h : bound.Covers w.facts token) :
    ∃ bindings, w.bindings (bound.map (·.1)) token = .ok bindings
      ∧ Bindings.Fit w.facts bound bindings := by
  induction h with
  | nil => exact ⟨[], rfl, .nil⟩
  | @cons entry id bound token hfirst _ ih =>
    obtain ⟨fact, hfact, rfl, htype⟩ := hfirst
    obtain ⟨bindings, hbindings, hfit⟩ := ih
    refine ⟨(entry.1, fact) :: bindings, ?_, .cons ⟨rfl, hfact, htype⟩ hfit⟩
    simp only [List.map_cons, WorkingMemory.bindings]
    rw [WorkingMemory.find_eq hdistinct hfact, hbindings]
    rfl

namespace Condition

variable {w : WorkingMemory} (halphas : ∀ memory ∈ w.alphas, memory.Tracks w.facts)

include halphas

theorem covers_child {condition : Condition} {node : Node}
    (himplements : node.Implements w.alphas condition) {bound : Bound} {token child : Token}
    (hcovers : bound.Covers w.facts token) (hchild : node.Child w token child) :
    Bound.Covers w.facts (bound ++ condition.binding?.toList) child := by
  cases himplements using Node.Implements.cases with
  | @pattern filter var alpha memory hmemory hidentity =>
    -- the memory may be shared with other patterns, but only with those of the same type
    obtain ⟨id, hmem, -, rfl⟩ := hchild
    obtain ⟨filter', hfilter, fact, hfact, rfl, hadmits⟩ :=
      (WorkingMemory.mem_members_iff halphas alpha id).mp hmem
    obtain rfl : memory.filter = filter' := by simpa [hmemory] using hfilter
    have htype : memory.filter.type = filter.type :=
      congrArg FactFilter.Identity.type hidentity
    refine List.rel_append hcovers (.cons ⟨fact, hfact, rfl, ?_⟩ .nil)
    rw [FactFilter.type_of_admits hadmits, htype]
  | join | negation | aggregate =>
    rw [(Node.child_iff rfl).mp hchild]
    simpa [binding?] using hcovers

theorem covers_final {conditions : List Condition} {stages : List Stage}
    (himplements : List.Forall₂ (fun c s => s.node.Implements w.alphas c) conditions stages)
    {bound : Bound} {parents : List Token} (hcovers : ∀ token ∈ parents, bound.Covers w.facts token)
    (hground : Stage.AllGrounded w parents stages) :
    ∀ token ∈ Stage.final parents stages,
      Bound.Covers w.facts (bound ++ conditions.filterMap (·.binding?)) token := by
  induction himplements generalizing bound parents with
  | nil => simpa [Stage.final] using hcovers
  | @cons condition stage conditions stages hfirst _ ih =>
    have hstage : ∀ token ∈ stage.tokens,
        Bound.Covers w.facts (bound ++ condition.binding?.toList) token := by
      intro child hchild
      obtain ⟨token, htoken, hof⟩ := hground.1.closed child hchild
      exact covers_child halphas hfirst (hcovers token htoken) hof
    rw [filterMap_cons_append, ← List.append_assoc]
    exact ih hstage hground.2

end Condition

theorem Stage.nodup_of_mem_final {w : WorkingMemory} {parents : List Token} {stages : List Stage}
    (hground : Stage.AllGrounded w parents stages) (hparents : ∀ token ∈ parents, token.Nodup) :
    ∀ token ∈ Stage.final parents stages, token.Nodup := by
  induction stages generalizing parents with
  | nil => exact hparents
  | cons stage stages ih =>
    refine ih hground.2 fun child hchild => ?_
    obtain ⟨token, htoken, hof⟩ := hground.1.closed child hchild
    cases hnode : stage.node with
    | pattern alpha =>
      rw [hnode] at hof
      obtain ⟨id, -, hnew, rfl⟩ := hof
      exact List.nodup_append'.mpr ⟨hparents token htoken, List.nodup_singleton id, by simpa using hnew⟩
    | join | negation | aggregate =>
      rw [(Node.child_iff (by rw [hnode]; rfl)).mp hof]
      exact hparents token htoken

namespace Network

section Match

variable {net : Network} (h : net.Sound) {name : String} {memory : RuleMemory}
  (hmemory : net.memory? name = some memory)

include h hmemory

theorem covers_complete {token : Token} (htoken : token ∈ Stage.complete memory.stages) :
    memory.rule.bound.Covers net.working.facts token := by
  rw [Stage.complete_eq_final] at htoken
  have hempty : ∀ token ∈ ([[]] : List Token), Bound.Covers net.working.facts [] token := by
    intro token htoken
    rw [List.mem_singleton.mp htoken]
    exact .nil
  exact Condition.covers_final h.alphas (h.implements name memory hmemory) hempty
    (h.grounded name memory hmemory) token htoken

theorem nodup_complete {token : Token} (htoken : token ∈ Stage.complete memory.stages) :
    token.Nodup := by
  rw [Stage.complete_eq_final] at htoken
  exact Stage.nodup_of_mem_final (h.grounded name memory hmemory) (by simp) token htoken

theorem bindings_of_complete {a : Activation} (hrule : memory.rule = a.rule)
    (htoken : a.token ∈ Stage.complete memory.stages) :
    ∃ bindings, net.bindings a = .ok bindings
      ∧ Bindings.Fit net.working.facts a.rule.bound bindings := by
  have hcovers := covers_complete h hmemory htoken
  rw [hrule] at hcovers
  obtain ⟨bindings, hbindings, hfit⟩ := hcovers.bindings h.distinct
  refine ⟨bindings, ?_, hfit⟩
  rw [← hbindings, Rule.map_bound]
  rfl

end Match

theorem valuesOf_failsWith {alphas : List AlphaMemory} {conditions : List Condition}
    {stages : List Stage}
    (himplements : List.Forall₂ (fun c s => s.node.Implements alphas c) conditions stages)
    {bound : List String} (hscoped : Condition.Scoped bound conditions) {bindings : Bindings}
    (hbinds : ∀ var ∈ bound ++ conditions.filterMap (·.var?), bindings.Binds var) (n : Nat)
    (values : Fields) : FailsWith (fun fault => ¬ fault.Absent) (valuesOf n bindings values stages) := by
  induction himplements generalizing bound n values with
  | nil => exact .ok values
  | @cons condition stage conditions stages hfirst _ ih =>
    have hlater := ih hscoped.2 (by rwa [filterMap_cons_append, ← List.append_assoc] at hbinds)
    unfold valuesOf
    split
    . next memory hnode =>
      split
      . next name hname =>
        have hkey : ∃ key, bindingKey memory.keys bindings = .ok key := by
          apply bindingKey_ok
          intro k hk
          apply hbinds
          apply List.mem_append_left
          apply hscoped.1
          apply Node.uses_of_implements hfirst
          rw [hnode]
          exact hk
        exact .bind (.of_ok hkey) fun key _ =>
          .bind (memory.value_failsWith n key) fun value _ => hlater _ _
      . exact hlater _ _
    . exact hlater _ _

theorem aggregateValues_failsWith {net : Network} (h : net.Sound) (hscoped : net.Scoped)
    {memory : RuleMemory} {a : Activation} (hmemory : net.memory? a.rule.name = some memory)
    (hrule : memory.rule = a.rule) (htoken : a.token ∈ Stage.complete memory.stages) (n : Nat) :
    FailsWith (fun fault => ¬ fault.Absent) (net.aggregateValues a n) := by
  obtain ⟨bindings, hbindings, hfit⟩ := bindings_of_complete h hmemory hrule htoken
  have hmem : memory.rule ∈ net.ruleSet.rules := by
    rw [← h.rules]
    exact List.mem_map.mpr ⟨memory, List.mem_of_find?_eq_some hmemory, rfl⟩
  have hbinds : ∀ var ∈ memory.rule.vars, bindings.Binds var := by
    intro var hvar
    rw [Bindings.Binds, hfit.map_fst, Rule.map_bound, ← hrule]
    exact hvar
  have hvalues := valuesOf_failsWith (h.implements a.rule.name memory hmemory)
    (hscoped memory.rule hmem) hbinds n []
  unfold aggregateValues
  refine .bind (.of_ok ⟨bindings, hbindings⟩) fun found hfound => ?_
  obtain rfl : found = bindings := Except.ok.inj (hfound.symm.trans hbindings)
  rw [hmemory]
  exact hvalues

end Network
end ForwardChaining
