import ForwardChaining.Proofs.Network.Start

/-!
This module contains what the stages of a settled rule hold, at every level: exactly the tokens that
matching from scratch has behind the same conditions.
-/

namespace ForwardChaining

/-- Patterns of the rules whose filters have one identity admit the fact or refuse it alike. -/
def SharesFilters (rules : List Rule) (fact : Fact) : Prop :=
  ∀ filter, IsPatternOf rules filter → ∀ other, IsPatternOf rules other →
    other.identity = filter.identity → other.admits fact = filter.admits fact

namespace Condition

section Tame

variable {w : WorkingMemory} {relevant : Fact → Bool} {facts : List Fact}
  (h : Comparable w relevant facts) (hflat : ∀ fact ∈ w.facts, fact.Flat)

include h hflat

theorem satisfyAll_ok {conditions : List Condition} {stages : List Stage}
    (hserved : List.Forall₂ (fun c s => ServedBy w c s.node) conditions stages)
    (hwithin : ∀ condition ∈ conditions, condition.Within relevant) {bound : List String}
    (hscoped : Scoped bound conditions) {vars : List String}
    (hvars : (bound ++ conditions.filterMap (·.var?)).IsPrefix vars) {tokens : List Token}
    (hbinds : ∀ token ∈ tokens, Binds w relevant token)
    (hlength : ∀ token ∈ tokens, token.length = bound.length) :
    ∃ found, (satisfyAll facts vars tokens conditions).outcome = .ok found := by
  induction hserved generalizing bound tokens with
  | nil => exact ⟨tokens, rfl⟩
  | @cons condition stage conditions stages hfirst _ ih =>
    have hwithin' := hwithin condition (by simp)
    -- A token that binds what the condition uses is advanced without a fault.
    obtain ⟨next, hnext⟩ :
        ∃ next, (Logged.gather (condition.satisfy facts vars) tokens).outcome = .ok next := by
      apply Logged.gather_ok_of_forall
      intro token htoken
      have hcarried : condition.CarriedOutBy w stage.node :=
        ⟨hfirst.implements, hfirst.tracks, hfirst.exact⟩
      have huses : ∀ var ∈ condition.uses, var ∈ vars.take token.length := by
        intro var hvar
        rw [vars_take hvars (hlength token htoken)]
        exact hscoped.1 var hvar
      exact (concur_advance h vars hfirst hwithin' (hbinds token htoken)).ok_iff.mp
        (advance_ok h.distinct hflat hcarried (live_of_binds (hbinds token htoken)) huses)
    have hchild : ∀ child ∈ next, ∃ token ∈ tokens, stage.node.Child w token child := by
      intro child hmem
      obtain ⟨token, htoken, hyields⟩ := (mem_gathered h hfirst hwithin' hbinds hnext child).mp hmem
      exact ⟨token, htoken, Node.child_of_yields hyields⟩
    have hvars' :
        ((bound ++ condition.var?.toList) ++ conditions.filterMap (·.var?)).IsPrefix vars := by
      rw [List.filterMap_cons] at hvars
      cases hvar : condition.var? <;> simpa [hvar] using hvars
    obtain ⟨found, hfound⟩ := ih (fun other hother => hwithin other (by simp [hother])) hscoped.2 hvars'
      (fun child hmem => by
        obtain ⟨token, htoken, hof⟩ := hchild child hmem
        exact binds_child h hfirst hwithin' (hbinds token htoken) hof)
      (fun child hmem => by
        obtain ⟨token, htoken, hof⟩ := hchild child hmem
        exact (fits_child h.alphas hfirst.implements
          ⟨live_of_binds (hbinds token htoken), hlength token htoken⟩ hof).2)
    refine ⟨found, ?_⟩
    simp only [satisfyAll, Logged.outcome_bind, hnext]
    exact hfound

end Tame
end Condition

namespace Network

/-- The memories that patterns share belong to patterns of the rules, and sharing them is sound. -/
structure Coherent (net : Network) : Prop where
  patterns : ∀ alpha ∈ net.working.alphas, IsPatternOf net.ruleSet.rules alpha.filter
  shares : ∀ fact ∈ net.working.facts, SharesFilters net.ruleSet.rules fact

theorem Coherent.served {net : Network} (hc : net.Coherent) (h : net.Sound) {name : String}
    (hexact : net.Exact name) {memory : RuleMemory} (hmemory : net.memory? name = some memory) :
    List.Forall₂ (fun c s => Condition.ServedBy net.working c s.node) memory.rule.conditions
      memory.stages := by
  have himplements := h.implements name memory hmemory
  rw [List.forall₂_iff_get] at himplements ⊢
  refine ⟨himplements.1, ?_⟩
  intro i hi hi'
  obtain ⟨hrule, condition, hcondition, himplements', hsafe⟩ :=
    h.exists_condition hmemory (List.getElem?_eq_getElem hi')
  rw [List.getElem?_eq_getElem hi, Option.some.injEq] at hcondition
  rw [List.get_eq_getElem, List.get_eq_getElem, hcondition]
  refine ⟨himplements', h.nodes name memory hmemory _ (List.getElem_mem hi'),
    hexact memory hmemory _ (List.getElem_mem hi'), ?_, hsafe⟩
  cases hshape : condition with
  | pattern filter var =>
    intro alpha halpha hidentity fact hfact
    have hmem : condition ∈ memory.rule.conditions := hcondition ▸ List.getElem_mem hi
    exact hc.shares fact hfact filter ⟨memory.rule, hrule, var, hshape ▸ hmem⟩ alpha.filter
      (hc.patterns alpha halpha) hidentity
  | join | negation | aggregate => trivial

theorem Sound.comparable {net : Network} (h : net.Sound) {facts : List Fact}
    (hperm : facts.Perm net.working.facts) :
    Condition.Comparable net.working (fun _ => true) facts :=
  ⟨hperm.filter _, h.distinct, (hperm.map _).nodup_iff.mpr h.distinct, h.alphas⟩

section Level

variable {net : Network} (h : net.Sound) (hc : net.Coherent) {name : String}
  (hexact : net.Exact name) (hsettled : net.Settled name fun _ _ => False)
  {memory : RuleMemory} (hmemory : net.memory? name = some memory)

theorem binds_nil (w : WorkingMemory) (relevant : Fact → Bool) :
    ∀ token ∈ ([[]] : List Token), Condition.Binds w relevant token := by
  intro token htoken
  rw [List.mem_singleton.mp htoken]
  intro id hid
  simp at hid

include h hc hexact hsettled hmemory

theorem complete_agrees {relevant : Fact → Bool} {facts : List Fact} (hdistinct : Distinct facts)
    (hperm : (facts.filter relevant).Perm (net.working.facts.filter relevant))
    (hwithin : ∀ condition ∈ memory.rule.conditions, condition.Within relevant)
    {found : List Token} (hok : (memory.rule.tokens facts).outcome = .ok found) :
    ∀ token, token ∈ found ↔ token ∈ Stage.complete memory.stages := by
  rw [Stage.complete_eq_final]
  exact Condition.satisfyAll_agrees ⟨hperm, h.distinct, hdistinct, h.alphas⟩
    (hc.served h hexact hmemory) hwithin (binds_nil _ _) (h.grounded name memory hmemory)
    (hsettled memory hmemory) (fun _ => Iff.rfl) hok

omit hsettled in
theorem tokens_ok (htame : net.Tame name) {facts : List Fact} (hperm : facts.Perm net.working.facts) :
    ∃ found, (memory.rule.tokens facts).outcome = .ok found :=
  Condition.satisfyAll_ok (h.comparable hperm) htame.flat (hc.served h hexact hmemory)
    (fun _ _ _ _ _ _ => rfl) (scope_of_memory h htame hmemory) (List.prefix_refl _) (binds_nil _ _)
    (by simp)

theorem level_agrees (htame : net.Tame name) {facts : List Fact}
    (hperm : facts.Perm net.working.facts) {i : Nat} {stage : Stage}
    (hstage : memory.stages[i]? = some stage) :
    stage.tokens.Nodup
      ∧ ∃ found, (Condition.satisfyAll facts memory.rule.vars [[]]
          (memory.rule.conditions.take (i + 1))).outcome = .ok found
        ∧ ∀ token, token ∈ found ↔ token ∈ stage.tokens := by
  have hcomparable := h.comparable hperm
  have hserved := List.forall₂_take (i + 1) (hc.served h hexact hmemory)
  have hwithin : ∀ condition ∈ memory.rule.conditions.take (i + 1),
      condition.Within fun _ => true := fun _ _ _ _ _ _ => rfl
  have hground := h.grounded name memory hmemory
  refine ⟨(hground.at hstage).nodup, ?_⟩
  have hvars : ([] ++ (memory.rule.conditions.take (i + 1)).filterMap Condition.var?).IsPrefix
      memory.rule.vars := (List.take_prefix _ _).filterMap _
  obtain ⟨found, hfound⟩ := Condition.satisfyAll_ok hcomparable htame.flat hserved hwithin
    (Condition.scoped_take (scope_of_memory h htame hmemory) (i + 1)) hvars (binds_nil _ _) (by simp)
  refine ⟨found, hfound, ?_⟩
  have hlast : Stage.final [[]] (memory.stages.take (i + 1)) = stage.tokens :=
    Stage.final_take_succ hstage [[]]
  rw [← hlast]
  exact Condition.satisfyAll_agrees hcomparable hserved hwithin (binds_nil _ _)
    (hground.take (i + 1)) ((hsettled memory hmemory).take (i + 1)) (fun _ => Iff.rfl) hfound

end Level
end Network
end ForwardChaining
