import ForwardChaining.Rule.Basic

/-!
This module contains the actions that do not look at the cycle in which they run.
-/

namespace ForwardChaining

namespace Expr

mutual

/-- The expression does not look at the cycle. -/
def Timeless : Expr → Prop
  | .cycle => False
  | .compare _ a b | .less a b | .add a b | .mul a b => Timeless a ∧ Timeless b
  | .all parts | .any parts => AllTimeless parts
  | .not a => Timeless a
  | _ => True
termination_by structural e => e

/-- None of the expressions looks at the cycle. -/
def AllTimeless : List Expr → Prop
  | [] => True
  | e :: es => Timeless e ∧ AllTimeless es
termination_by structural es => es

end

end Expr

/-- The same firing in another cycle. -/
def Surroundings.at (x : Surroundings) (cycle : Value) : Surroundings :=
  { x with cycle }

theorem Surroundings.identity_at (x : Surroundings) (cycle : Value) (target : Target) :
    (x.at cycle).identity target = x.identity target := by
  cases target with
  | named ref => cases ref <;> rfl
  | bound var => rfl

/-- The same scope, but for the cycle of the firing. -/
def Scope.at (s : Scope) (cycle : Value) : Scope :=
  { s with surroundings := s.surroundings.map (·.at cycle) }

theorem Scope.firing_at (s : Scope) (cycle : Value) (name : String) :
    (s.at cycle).firing name = (s.firing name).map (·.at cycle) := by
  unfold firing Scope.at
  cases s.surroundings <;> rfl

namespace Expr

mutual

theorem eval_at (s : Scope) (cycle : Value) : (e : Expr) → e.Timeless → eval (s.at cycle) e = eval s e
  | .lit _, _ => rfl
  | .get _ _, _ => rfl
  | .item _ _, _ => rfl
  | .has _ _, _ => rfl
  | .fact var field, _ => by
    simp only [eval, Scope.firing_at]
    cases s.firing "fact" <;> rfl
  | .current target field, _ => by
    simp only [eval, Scope.firing_at]
    cases s.firing "current" <;> rfl
  | .value name, _ => by
    simp only [eval, Scope.firing_at]
    cases s.firing "value" <;> rfl
  | .cycle, h => False.elim h
  | .rule, _ => by
    simp only [eval, Scope.firing_at]
    cases s.firing "rule_name" <;> rfl
  | .count type, _ => by
    simp only [eval, Scope.firing_at]
    cases s.firing "scan" <;> rfl
  | .compare op a b, h => by
    simp only [eval, eval_at s cycle a h.1, eval_at s cycle b h.2]
  | .all parts, h => by
    simp only [eval, evalAll_at s cycle parts h]
  | .any parts, h => by
    simp only [eval, evalAny_at s cycle parts h]
  | .not a, h => by
    simp only [eval, eval_at s cycle a h]
  | .less a b, h => by
    simp only [eval, eval_at s cycle a h.1, eval_at s cycle b h.2]
  | .add a b, h => by
    simp only [eval, eval_at s cycle a h.1, eval_at s cycle b h.2]
    rfl
  | .mul a b, h => by
    simp only [eval, eval_at s cycle a h.1, eval_at s cycle b h.2]
    rfl
  | .fail _ _, _ => rfl
termination_by structural e => e

theorem evalAll_at (s : Scope) (cycle : Value) :
    (es : List Expr) → AllTimeless es → evalAll (s.at cycle) es = evalAll s es
  | [], _ => rfl
  | e :: es, h => by
    simp only [evalAll, eval_at s cycle e h.1, evalAll_at s cycle es h.2]
termination_by structural es => es

theorem evalAny_at (s : Scope) (cycle : Value) :
    (es : List Expr) → AllTimeless es → evalAny (s.at cycle) es = evalAny s es
  | [], _ => rfl
  | e :: es, h => by
    simp only [evalAny, eval_at s cycle e h.1, evalAny_at s cycle es h.2]
termination_by structural es => es

end

end Expr

/-- No value that is computed looks at the cycle. -/
def Operand.Timeless : Operand → Prop
  | .literal _ => True
  | .computed _ e => e.Timeless

/-- Nothing that the step evaluates looks at the cycle. -/
def Step.Timeless : Step → Prop
  | .eval e => e.Timeless
  | .note s => s.Timeless
  | .attempt s => s.Timeless
  | _ => True

/-- Nothing that the part of an action evaluates looks at the cycle. -/
def ActionStep.Timeless : ActionStep → Prop
  | .set _ _ operand => operand.Timeless
  | .append _ _ operand _ => operand.Timeless
  | .insert _ operands => ∀ entry ∈ operands, entry.2.Timeless
  | .script ss => ∀ s ∈ ss, s.Timeless
  | .retract _ | .explain _ => True

/-- The action of the rule does not look at the cycle. -/
def Rule.Timeless (rule : Rule) : Prop :=
  ∀ p ∈ rule.action, p.Timeless

end ForwardChaining
