import ForwardChaining.Proofs.Network.Delivery

/-!
This module contains that the network of scoped rules looks up nothing that is not there. Tests still fail
on values: on what has no hash, or on numbers without a sum. A change is not followed for want of something
only if a fact goes that the network never got to know.
-/

namespace ForwardChaining

namespace Fault

/-- Something was looked up that is not there, or that is not declared. -/
def Absent : Fault → Prop
  | .missingKey _ | .unknownFactType .. => True
  | _ => False

end Fault

theorem Operator.apply_failsWith (op : Operator) (actual expected : Value) :
    FailsWith (fun fault => ¬ fault.Absent) (op.apply actual expected) := by
  intro fault hfault
  obtain ⟨-, part, -, rfl⟩ := Operator.apply_eq_error.mp hfault
  exact id

namespace Value

theorem toReal_failsWith (x : Value) : FailsWith (fun fault => ¬ fault.Absent) x.toReal := by
  unfold toReal
  split
  . exact .ok _
  . split
    . split
      . exact .ok _
      . exact .error id
    . exact .error id

theorem not_absent_sumFault (cause : SumError) : ¬ (sumFault cause).Absent := by
  cases cause <;> exact id

theorem addReals_failsWith (s : Binary64.Partials) (values : List Value) :
    FailsWith (fun fault => ¬ fault.Absent) (addReals s values) := by
  induction values generalizing s with
  | nil => exact .ok s
  | cons x values ih =>
    unfold addReals
    split
    . next fault hreal => exact .error (toReal_failsWith x fault hreal)
    . split
      . exact .error (not_absent_sumFault _)
      . exact ih _

theorem exactSum_failsWith (n : Nat) (values : List Value) :
    FailsWith (fun fault => ¬ fault.Absent) (exactSum n values) := by
  unfold exactSum
  split
  . exact .ok _
  . split
    . next fault hadd => exact .error (addReals_failsWith _ _ fault hadd)
    . split
      . exact .error (not_absent_sumFault _)
      . exact .ok _

theorem extreme_failsWith (r : Relation) (best : Value) (values : List Value) :
    FailsWith (fun fault => ¬ fault.Absent) (extreme r best values) := by
  induction values generalizing best with
  | nil => exact .ok best
  | cons x values ih =>
    unfold extreme
    split
    . exact .error id
    . exact ih _
    . exact ih _

end Value

theorem AggregateFunction.value_failsWith (n : Nat) (f : AggregateFunction) (values : List Value) :
    FailsWith (fun fault => ¬ fault.Absent) (f.value n values) := by
  unfold value
  split
  . exact .ok _
  . exact Value.exactSum_failsWith _ _
  . exact .ok _
  . exact Value.extreme_failsWith _ _ _
  . exact Value.extreme_failsWith _ _ _

theorem AggregateMemory.value_failsWith (memory : AggregateMemory) (n : Nat) (key : Key) :
    FailsWith (fun fault => ¬ fault.Absent) (memory.value n key) := by
  unfold value
  split
  . exact AggregateFunction.value_failsWith _ _ _
  . exact .ok _
  . exact AggregateFunction.value_failsWith _ _ _

theorem JoinCondition.holds_failsWith {join : JoinCondition} {bindings : Bindings}
    (hbound : ∀ var ∈ (Condition.join join).uses, bindings.Binds var) :
    FailsWith (fun fault => ¬ fault.Absent) (join.holds bindings) := by
  have hcompares : FailsWith (fun fault => ¬ fault.Absent) (join.compares bindings) := by
    unfold compares
    split
    . next left right hleft hright =>
      obtain ⟨a, ha, -⟩ := (hbound left.var (by simp [Condition.uses, hleft])).lookup
      obtain ⟨b, hb, -⟩ := (hbound right.var (by simp [Condition.uses, hright])).lookup
      simp only [FieldRef.resolve, ha, hb]
      exact join.op.apply_failsWith _ _
    . exact .ok true
  obtain ⟨facts, hfacts⟩ : ∃ facts, join.arguments bindings = .ok facts :=
    arguments_ok fun var hvar => hbound var (by simp [Condition.uses, hvar])
  unfold holds
  rw [hfacts]
  split
  . exact .ok _
  . exact hcompares

namespace Condition

theorem confined_of_implements {w : WorkingMemory} (hdistinct : Distinct w.facts)
    (vars : List String) {condition : Condition} {node : Node}
    (himplements : node.Implements w.alphas condition) :
    Confined (fun fault => ¬ fault.Absent) w vars condition node := by
  refine ⟨himplements, ?_⟩
  intro token hlive huses
  obtain ⟨bindings, hbindings, hvars, -⟩ := WorkingMemory.bindings_ok hdistinct hlive vars
  have hbound : ∀ var ∈ condition.uses, bindings.Binds var := by
    intro var hvar
    rw [Bindings.Binds, hvars]
    exact huses var hvar
  cases himplements using Node.Implements.cases with
  | pattern => exact .of_ok ⟨_, Node.outcome_advance_pattern w vars token _⟩
  | join across =>
    rw [Node.outcome_advance rfl, Node.verdict, hbindings]
    exact (JoinCondition.holds_failsWith hbound).map _
  | negation memory =>
    obtain ⟨key, hkey⟩ := bindingKey_ok fun k hk =>
      hbound k.ref.var (List.mem_map.mpr ⟨k, hk, rfl⟩)
    rw [Node.outcome_advance rfl, Node.verdict, hbindings]
    simp only [Except.bind, hkey]
    exact .ok _
  | aggregate memory =>
    obtain ⟨key, hkey⟩ := bindingKey_ok fun k hk =>
      hbound k.ref.var (List.mem_map.mpr ⟨k, hk, rfl⟩)
    rw [Node.outcome_advance rfl, Node.verdict, hbindings]
    simp only [Except.bind, hkey]
    exact ((memory.value_failsWith 0 key).bind fun value _ =>
      Operator.apply_failsWith _ _ _).map _

end Condition

namespace Network

/-- The conditions of all rules read only variables that are bound before them. -/
def Scoped (net : Network) : Prop :=
  ∀ rule ∈ net.ruleSet.rules, Condition.Scoped [] rule.conditions

section Scoped

variable {net : Network} (h : net.Sound) (hscoped : net.Scoped)

include h hscoped

theorem Scoped.confined (name : String) : net.Confined (fun fault => ¬ fault.Absent) name := by
  refine ⟨fun rule hrule _ => hscoped rule hrule, ?_⟩
  intro memory hmemory
  exact (h.implements name memory hmemory).imp fun condition stage himplements =>
    Condition.confined_of_implements h.distinct _ himplements

theorem insert_failsWith {fact : Fact} (hfresh : Unused fact.id net.working.facts) :
    (net.insert fact).FailsWith fun fault => ¬ fault.Absent := by
  obtain ⟨ha, heq⟩ := arrived h hfresh
  have hsound := ha.sound h hfresh
  have hscoped' : (net.arrival fact).1.Scoped := by
    rw [Scoped, ha.turned.ruleSet]
    exact hscoped
  rw [heq]
  exact tasks_failsWith hsound fact.id (ha.suits h hfresh) (Scoped.confined hsound hscoped')

theorem retract_failsWith {fact : Fact}
    (htype : ∀ other ∈ net.working.facts, other.id = fact.id → other.type = fact.type) :
    (net.retract fact).FailsWith fun fault => fault.Absent →
      fault = .missingKey (.int fact.id) ∧ Unused fact.id net.working.facts := by
  have hd := departed h htype
  have hsound := hd.sound h
  have hscoped' : (net.departure fact).1.Scoped := by
    rw [Scoped, hd.turned.ruleSet]
    exact hscoped
  rw [retract_eq h]
  split
  . next hunused =>
    rintro _ ⟨⟩ -
    exact ⟨rfl, hunused⟩
  . intro fault hfault habsent
    exact absurd habsent (tasks_failsWith hsound fact.id (hd.suits h)
      (Scoped.confined hsound hscoped') fault hfault)

theorem onChange_failsWith {change : Change} (hadmissible : change.Admissible net.working.facts) :
    (net.onChange change).FailsWith fun fault => fault.Absent →
      ∃ fact ∈ change.takes, fault = .missingKey (.int fact.id)
        ∧ Unused fact.id net.working.facts := by
  cases change with
  | inserted fact =>
    intro fault hfault habsent
    exact absurd habsent (insert_failsWith h hscoped hadmissible fault hfault)
  | retracted fact =>
    intro fault hfault habsent
    exact ⟨fact, rfl, retract_failsWith h hscoped hadmissible fault hfault habsent⟩
  | updated fact previous =>
    have hretract := retract_failsWith h hscoped hadmissible.2.2
    obtain ⟨net', hreplaced, ⟨-, heq⟩ | ⟨cause, hcause, heq⟩⟩ := onChange_updated h hadmissible
    . have hscoped' : net'.Scoped := by
        rw [Scoped, hreplaced.same.ruleSet]
        exact hscoped
      intro fault hfault habsent
      rw [heq] at hfault
      exact absurd habsent
        (insert_failsWith hreplaced.sound hscoped' hreplaced.fresh fault hfault)
    . intro fault hfault habsent
      rw [heq] at hfault
      cases hfault
      exact ⟨previous, rfl, hretract cause (by rw [hcause]) habsent⟩

end Scoped
end Network
end ForwardChaining
