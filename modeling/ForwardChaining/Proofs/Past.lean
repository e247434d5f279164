import Mathlib.Data.List.Basic

/-!
This module contains what can be said of the past of a system, given the steps that it has taken, in their
order. All of it is settled by the last step and the past before it.
-/

namespace ForwardChaining

variable {α : Type}

/-- A step of one kind was taken, and none of another kind since. -/
def Since (occurs ends : α → Prop) (past : List α) : Prop :=
  ∃ earlier step later, past = earlier ++ step :: later ∧ occurs step ∧ ∀ other ∈ later, ¬ ends other

/-- Each step fits the past in which it was taken. -/
def Throughout (fits : List α → α → Prop) (past : List α) : Prop :=
  ∀ earlier step later, past = earlier ++ step :: later → fits earlier step

theorem snoc_eq_append_cons {past earlier later : List α} {last step : α} :
    past ++ [last] = earlier ++ step :: later
      ↔ (past = earlier ∧ last = step ∧ later = [])
        ∨ ∃ between, later = between ++ [last] ∧ past = earlier ++ step :: between := by
  constructor
  . intro heq
    rcases List.eq_nil_or_concat' later with rfl | ⟨between, other, rfl⟩
    . obtain ⟨hpast, hlast⟩ := List.append_inj' heq rfl
      exact .inl ⟨hpast, List.singleton_inj.mp hlast, rfl⟩
    . rw [← List.cons_append, ← List.append_assoc] at heq
      obtain ⟨hpast, hlast⟩ := List.append_inj' heq rfl
      exact .inr ⟨between, by rw [List.singleton_inj.mp hlast], hpast⟩
  . rintro (⟨rfl, rfl, rfl⟩ | ⟨between, rfl, rfl⟩)
    . rfl
    . simp

section Since

variable {occurs ends : α → Prop}

theorem not_since_nil : ¬ Since occurs ends [] := by
  rintro ⟨earlier, step, later, heq, -⟩
  exact List.append_ne_nil_of_right_ne_nil earlier (List.cons_ne_nil step later) heq.symm

theorem exists_of_since {past : List α} (h : Since occurs ends past) : ∃ step ∈ past, occurs step := by
  obtain ⟨earlier, step, later, rfl, hoccurs, -⟩ := h
  exact ⟨step, by simp, hoccurs⟩

theorem since_snoc {past : List α} {last : α} :
    Since occurs ends (past ++ [last]) ↔ occurs last ∨ Since occurs ends past ∧ ¬ ends last := by
  constructor
  . rintro ⟨earlier, step, later, heq, hoccurs, hlater⟩
    -- the step is the last one, or it belongs to the past before it
    rcases snoc_eq_append_cons.mp heq with ⟨-, rfl, -⟩ | ⟨between, rfl, rfl⟩
    . exact .inl hoccurs
    . rw [List.forall_mem_append, List.forall_mem_singleton] at hlater
      exact .inr ⟨⟨earlier, step, between, rfl, hoccurs, hlater.1⟩, hlater.2⟩
  . rintro (hoccurs | ⟨⟨earlier, step, later, rfl, hoccurs, hlater⟩, hlast⟩)
    . exact ⟨past, last, [], rfl, hoccurs, by simp⟩
    . refine ⟨earlier, step, later ++ [last], by simp, hoccurs, ?_⟩
      rw [List.forall_mem_append, List.forall_mem_singleton]
      exact ⟨hlater, hlast⟩

end Since

section Throughout

variable {fits : List α → α → Prop}

theorem throughout_nil : Throughout fits [] := by
  intro earlier step later heq
  exact absurd heq.symm (List.append_ne_nil_of_right_ne_nil earlier (List.cons_ne_nil step later))

theorem throughout_snoc {past : List α} {last : α} :
    Throughout fits (past ++ [last]) ↔ Throughout fits past ∧ fits past last := by
  constructor
  . intro h
    constructor
    . rintro earlier step later rfl
      exact h earlier step (later ++ [last]) (by simp)
    . exact h past last [] rfl
  . rintro ⟨hpast, hlast⟩ earlier step later heq
    rcases snoc_eq_append_cons.mp heq with ⟨rfl, rfl, -⟩ | ⟨between, -, heq⟩
    . exact hlast
    . exact hpast earlier step between heq

end Throughout
end ForwardChaining
