import ForwardChaining.Proofs.Network.Confined
import ForwardChaining.Proofs.Rule.WellFormed
import Mathlib

/-!
This module contains which comparisons of a rule have an answer: a join has one for all bindings of the
conditions before it, unless it looks up a field without a hash in a field that holds a set.
-/

namespace ForwardChaining

namespace JoinCondition

/-- The join looks up a field without a hash in a field that holds a set. -/
def Unanswered (join : JoinCondition) (bindings : Bindings) : Prop :=
  ∃ left right x y, join.left = some left ∧ join.right = some right
    ∧ left.resolve bindings = .ok x ∧ right.resolve bindings = .ok y ∧ join.op.Unanswered x y

section Bound

variable {join : JoinCondition} {bindings : Bindings}
  (hbound : ∀ var ∈ (Condition.join join).uses, bindings.Binds var)

include hbound

theorem resolve_ok {ref : FieldRef} (h : join.left = some ref ∨ join.right = some ref) :
    ∃ x, ref.resolve bindings = .ok x := by
  have hvar : ref.var ∈ (Condition.join join).uses := by
    rcases h with h | h <;> simp [Condition.uses, h]
  obtain ⟨fact, hfact, -⟩ := (hbound ref.var hvar).lookup
  exact ⟨fact.get ref.field, by simp only [FieldRef.resolve, hfact]⟩

theorem compares_ok_iff :
    (∃ answer, join.compares bindings = .ok answer) ↔ ¬ join.Unanswered bindings := by
  unfold compares Unanswered
  split
  . next left right hleft hright =>
    obtain ⟨x, hx⟩ := resolve_ok hbound (.inl hleft)
    obtain ⟨y, hy⟩ := resolve_ok hbound (.inr hright)
    rw [hx, hy, hleft, hright]
    change (∃ answer, join.op.apply x y = .ok answer) ↔ _
    rw [Operator.apply_ok_iff]
    simp [hx, hy]
  . next hmissing =>
    refine iff_of_true ⟨true, rfl⟩ ?_
    rintro ⟨left, right, -, -, hleft, hright, -⟩
    exact hmissing left right hleft hright

/-- A join of bound variables has an answer unless it looks up what has no hash. -/
theorem holds_ok_iff :
    (∃ answer, join.holds bindings = .ok answer) ↔ ¬ join.Unanswered bindings := by
  rw [← compares_ok_iff hbound]
  obtain ⟨facts, hfacts⟩ : ∃ facts, join.arguments bindings = .ok facts :=
    arguments_ok fun var hvar => hbound var (by simp [Condition.uses, hvar])
  unfold holds
  rw [hfacts]
  split
  . next hcompares _ => simp [hcompares, Except.map]
  . rfl

end Bound
end JoinCondition

/-! ### Compiled rules -/

theorem binds_of_scoped {conditions before after : List Condition} {condition : Condition}
    (hscope : Condition.Scoped [] conditions) (hsplit : conditions = before ++ condition :: after)
    {bindings : Bindings} (hbindings : bindings.map (·.1) = before.filterMap (·.var?)) :
    ∀ var ∈ condition.uses, bindings.Binds var := by
  intro var hvar
  have hi : conditions[before.length]? = some condition := by simp [hsplit]
  have hmem := Condition.uses_of_scoped hscope hi var hvar
  rwa [hsplit, List.take_left, List.nil_append, ← hbindings] at hmem

/--
Two values compare under an operator unless a value without a hash is looked up in a set, and so do the
fields that a compiled rule joins. To ask whether a collection contains a value always has an answer: the
one that the lookup has, or no if that has none.
-/
theorem comparisons_answer {spec : RuleSetSpec} {ruleSet : RuleSet}
    (hcompile : spec.compile = .ok ruleSet) :
    (∀ (op : Operator) (a b : Value),
      ((∃ answer, compareBy op.name a b = .ok answer) ↔ ¬ op.Unanswered a b)
      ∧ ∀ fault, compareBy op.name a b = .error fault →
        ∃ part, a.unhashable? = some part ∧ fault = .unhashable part.typeName)
    ∧ (∀ rule ∈ ruleSet.rules, ∀ (before after : List Condition) (join : JoinCondition)
        (bindings : Bindings), rule.conditions = before ++ .join join :: after →
      bindings.map (·.1) = before.filterMap (·.var?) →
        ((∃ answer, join.holds bindings = .ok answer) ↔ ¬ join.Unanswered bindings))
    ∧ ∀ a c : Value, c.IsCollection →
      (¬ Operator.isIn.Unanswered a c → compareBy "contains" c a = compareBy "in" a c)
      ∧ (Operator.isIn.Unanswered a c → compareBy "contains" c a = .ok false) := by
  refine ⟨fun op a b => ?_, fun rule hrule before after join bindings hsplit hbindings => ?_,
    fun a c hc => ?_⟩
  . rw [Operator.compareBy_name]
    exact ⟨Operator.apply_ok_iff, fun fault hfault => (Operator.apply_eq_error.mp hfault).2⟩
  . exact JoinCondition.holds_ok_iff
      (binds_of_scoped ((wellFormed_of_compile hcompile).scope rule hrule) hsplit hbindings)
  . have hin : compareBy "in" a c = Operator.isIn.apply a c := Operator.compareBy_name .isIn a c
    have hcontains : compareBy "contains" c a = Operator.contains.apply c a :=
      Operator.compareBy_name .contains c a
    rw [hin, hcontains, Operator.apply_contains hc]
    constructor
    . intro hanswered
      obtain ⟨answer, hanswer⟩ := Operator.apply_ok_iff.mpr hanswered
      rw [hanswer]
      rfl
    . intro hunanswered
      cases hanswer : Operator.isIn.apply a c with
      | ok answer => exact absurd hunanswered (Operator.apply_ok_iff.mp ⟨answer, hanswer⟩)
      | error => rfl

/-! ### A rule that looks up a list in a set -/

/-- The lead of a team must be one of its members. -/
def ledSpec : RuleSetSpec where
  factTypes := [{ name := "team" }]
  rules := [{
    name := "led"
    conditions := [
      .pattern { var := "t", factType := "team" },
      .join { left := some "t.lead", operator := "in", right := some "t.members" }] }]

def ledJoin : JoinCondition where
  left := some ⟨"t", "lead"⟩
  op := .isIn
  right := some ⟨"t", "members"⟩

def ledRule : Rule where
  name := "led"
  conditions := [.pattern { type := "team" } "t", .join ledJoin]

def ledRuleSet (digest : String) : RuleSet where
  factTypes := [{ name := "team" }]
  rules := [ledRule]
  index := .build [ledRule]
  digest

theorem compile_ledSpec : ledSpec.compile = .ok (ledRuleSet ledSpec.digest) :=
  compile_eq_ok.mpr ⟨_, _, rfl, rfl, rfl⟩

/-- A team of two with some lead. -/
def teamOf (lead : Value) : Bindings :=
  [("t", { id := 1, type := "team", data := .ofFields [("lead", lead), ("members", .set [.int 1, .int 2])] })]

/-- A list is looked up in a set, and a rule may do so, but there is no answer; the set does not contain it. -/
theorem lookup_raises :
    compareBy "in" (.list [.int 1]) (.set [.int 1]) = .error (.unhashable "list")
    ∧ compareBy "contains" (.set [.int 1]) (.list [.int 1]) = .ok false
    ∧ ledSpec.compile = .ok (ledRuleSet ledSpec.digest)
    ∧ ledJoin.holds (teamOf (.list [.int 1])) = .error (.unhashable "list") := by
  exact ⟨by rfl, by rfl, compile_ledSpec, by rfl⟩

/-- A lead may be a tuple, but not one that holds a list. -/
theorem comparisons_answer_team :
    (∃ answer, ledJoin.holds (teamOf (.tuple [.int 1])) = .ok answer)
    ∧ ¬ ∃ answer, ledJoin.holds (teamOf (.tuple [.int 1, .list []])) = .ok answer := by
  have hjoins := (comparisons_answer compile_ledSpec).2.1 ledRule (by simp [ledRuleSet])
    [.pattern { type := "team" } "t"] [] ledJoin
  constructor
  . refine (hjoins _ rfl rfl).mpr ?_
    rintro ⟨left, right, x, y, ⟨⟩, ⟨⟩, hx, -, -, -, -, hhash⟩
    obtain rfl : Value.tuple [.int 1] = x := Except.ok.inj hx
    exact hhash ((Value.unhashable?_eq_none _).mp rfl)
  . refine fun hanswer => (hjoins _ rfl rfl).mp hanswer ?_
    have hset : ¬ (Value.tuple [.int 1, .list []]).IsSet := nofun
    have hhash : ¬ (Value.tuple [.int 1, .list []]).HasHash :=
      Value.exists_unhashable?.mp ⟨.list [], rfl⟩
    exact ⟨_, _, _, _, rfl, rfl, rfl, rfl, .inl rfl, ⟨_, rfl⟩, hset, hhash⟩

end ForwardChaining
