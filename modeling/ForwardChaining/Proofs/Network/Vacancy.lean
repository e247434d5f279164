import ForwardChaining.Proofs.Network.Scope

/-!
This module contains what an aggregate answers when no fact has the type that it aggregates: its function
has a value over nothing, which is compared like any other. The answer is the same for every token, whether
it comes from the memory of a node or from scratch.
-/

namespace ForwardChaining

/-- The value of an aggregate function over nothing. -/
def AggregateFunction.ofNothing : AggregateFunction → Value
  | .count | .sum => .int 0
  | .min | .max => .null

@[simp]
theorem AggregateFunction.value_nil (n : Nat) (f : AggregateFunction) : f.value n [] = .ok f.ofNothing := by
  cases f <;> rfl

namespace AggregateTest

/-- Does the aggregate of nothing pass? -/
def passesNothing (test : AggregateTest) : Bool :=
  (test.satisfiedBy test.function.ofNothing).toOption.getD false

/-- The value of nothing has a hash, so that it can be compared with every threshold. -/
@[simp]
theorem satisfiedBy_ofNothing (test : AggregateTest) :
    test.satisfiedBy test.function.ofNothing = .ok test.passesNothing := by
  have hhash : test.function.ofNothing.unhashable? = none := by
    cases test.function <;> rfl
  obtain ⟨answer, hanswer⟩ : ∃ answer, test.satisfiedBy test.function.ofNothing = .ok answer :=
    Operator.apply_ok_of_hashable hhash
  rw [passesNothing, hanswer]
  rfl

theorem op_of_passesNothing {test : AggregateTest} (hf : test.function = .min ∨ test.function = .max)
    (h : test.passesNothing = true) : test.op ∈ [.eq, .ne, .isIn, .notIn] := by
  have hnull : test.function.ofNothing = .null := by
    rcases hf with hf | hf <;> rw [hf] <;> rfl
  rw [passesNothing, satisfiedBy, hnull] at h
  cases hop : test.op with
  | eq | ne | isIn | notIn => simp
  | contains | gt | lt | gte | lte | present =>
    rw [hop] at h
    simp [Operator.apply, Operator.holds, Operator.ordered, Except.toOption] at h

end AggregateTest

theorem AggregateMemory.contributionsOf_vacant {facts : List Fact} {filter : FactFilter}
    (hvacant : ∀ fact ∈ facts, fact.type ≠ filter.type) (keys : List KeyBinding) (test : AggregateTest)
    (key : Key) : contributionsOf filter keys test key facts = [] := by
  rw [contributionsOf, List.filterMap_eq_nil_iff]
  intro fact hfact
  have hnot : filter.admits fact = false := by
    rw [Bool.eq_false_iff]
    exact fun h => hvacant fact hfact (FactFilter.type_of_admits h)
  simp [hnot]

theorem AggregateMemory.passes_vacant {memory : AggregateMemory} {facts : List Fact}
    (h : memory.Tracks facts) (hvacant : ∀ fact ∈ facts, fact.type ≠ memory.filter.type) {key : Key}
    (hkey : key.Frozen) : memory.passes key = .ok memory.test.passesNothing := by
  have hcounted := h.counted key hkey
  rw [contributions_eq h, contributionsOf_vacant hvacant] at hcounted
  cases hfind : Key.find? key memory.groups with
  | none =>
    rw [passes, value, hfind]
    simp
  | some group =>
    rw [hfind] at hcounted
    exact absurd hcounted.1 (Nat.pos_iff_ne_zero.mp hcounted.2)

theorem WorkingMemory.bindingKey_ok {w : WorkingMemory} (hdistinct : Distinct w.facts) {vars : List String}
    {token : Token} (hlive : w.Live token) {keys : List KeyBinding}
    (huses : ∀ k ∈ keys, k.ref.var ∈ vars.take token.length) :
    ∃ bindings key, w.bindings vars token = .ok bindings ∧ bindingKey keys bindings = .ok key := by
  obtain ⟨bindings, hbindings, hvars, -⟩ := bindings_ok hdistinct hlive vars
  obtain ⟨key, hkey⟩ : ∃ key, bindingKey keys bindings = .ok key := by
    apply ForwardChaining.bindingKey_ok
    intro k hk
    rw [Bindings.Binds, hvars]
    exact huses k hk
  exact ⟨bindings, key, hbindings, hkey⟩

theorem Node.advance_vacant {w : WorkingMemory} (hdistinct : Distinct w.facts)
    {memory : AggregateMemory} (h : memory.Tracks w.facts)
    (hvacant : ∀ fact ∈ w.facts, fact.type ≠ memory.filter.type) {vars : List String} {token : Token}
    (hlive : w.Live token) (huses : ∀ k ∈ memory.keys, k.ref.var ∈ vars.take token.length) :
    ((aggregate memory).advance w vars token).outcome
      = .ok (if memory.test.passesNothing then [token] else []) := by
  obtain ⟨bindings, key, hbindings, hkey⟩ := WorkingMemory.bindingKey_ok hdistinct hlive huses
  have hpasses := AggregateMemory.passes_vacant h hvacant (frozen_bindingKey hkey)
  rw [outcome_advance rfl, verdict, hbindings]
  simp only [Except.bind, hkey, hpasses, Except.map]

namespace Condition

/-! ### Matching from scratch -/

theorem outcome_satisfyAll_append (facts : List Fact) (vars : List String) (tokens : List Token)
    (before after : List Condition) :
    (satisfyAll facts vars tokens (before ++ after)).outcome
      = (satisfyAll facts vars tokens before).outcome.bind fun found =>
          (satisfyAll facts vars found after).outcome := by
  induction before generalizing tokens with
  | nil => rfl
  | cons condition before ih =>
    simp only [List.cons_append, satisfyAll, Logged.outcome_bind, ih]
    cases (Logged.gather (condition.satisfy facts vars) tokens).outcome <;> rfl

theorem outcome_satisfyAll_nil (facts : List Fact) (vars : List String) (conditions : List Condition) :
    (satisfyAll facts vars [] conditions).outcome = .ok [] := by
  induction conditions with
  | nil => rfl
  | cons condition conditions ih =>
    simp only [satisfyAll, Logged.outcome_bind, Logged.gather, Logged.result, Except.bind]
    exact ih

theorem outcome_gather_alike {f : Token → Logged (List Token)} {tokens : List Token} {keep : Bool}
    (h : ∀ token ∈ tokens, (f token).outcome = .ok (if keep then [token] else [])) :
    (Logged.gather f tokens).outcome = .ok (if keep then tokens else []) := by
  induction tokens with
  | nil => cases keep <;> rfl
  | cons token tokens ih =>
    rw [List.forall_mem_cons] at h
    rw [Logged.outcome_gather_cons, h.1, ih h.2]
    cases keep <;> rfl

theorem fits_satisfy {facts : List Fact} {vars : List String} {condition : Condition} {token : Token}
    {out : List Token} (hout : (condition.satisfy facts vars token).outcome = .ok out)
    {bound : List String} (hfits : Fits { facts } bound token) :
    ∀ child ∈ out, Fits { facts } (bound ++ condition.var?.toList) child := by
  unfold satisfy at hout
  simp only [Logged.outcome_bind, Logged.outcome_monadLift, bind_eq_ok] at hout
  obtain ⟨bindings, -, hout⟩ := hout
  -- a condition that binds nothing keeps the token or drops it
  have hkept : ∀ keep : Bool, out = (if keep then [token] else []) → condition.var? = none →
      ∀ child ∈ out, Fits { facts } (bound ++ condition.var?.toList) child := by
    rintro keep rfl hvar child hchild
    cases keep with
    | true => simpa [hvar, List.mem_singleton.mp hchild] using hfits
    | false => simp at hchild
  cases condition with
  | pattern filter var =>
    intro child hchild
    obtain ⟨fact, hfact, found, hfound, hin⟩ := (Logged.mem_of_gather hout child).mp hchild
    unfold bindNext at hfound
    split at hfound
    . simp [← Except.ok.inj hfound] at hin
    . simp only [Logged.outcome_bind, bind_eq_ok, Logged.outcome_pure, Except.ok.injEq] at hfound
      obtain ⟨passes, -, rfl⟩ := hfound
      cases passes with
      | false => simp at hin
      | true =>
        rw [if_pos rfl, List.mem_singleton] at hin
        rw [hin]
        refine ⟨?_, by simp [var?, hfits.2]⟩
        rw [WorkingMemory.Live, List.forall_mem_append, List.forall_mem_singleton]
        exact ⟨hfits.1, fact, List.mem_of_mem_filter hfact, rfl⟩
  | join across =>
    simp only [Logged.outcome_bind, bind_eq_ok, Logged.outcome_pure, Except.ok.injEq] at hout
    obtain ⟨passes, -, rfl⟩ := hout
    exact hkept passes rfl rfl
  | negation filter keys =>
    simp only [Logged.outcome_bind, Logged.outcome_monadLift, bind_eq_ok, Logged.outcome_pure,
      Except.ok.injEq] at hout
    obtain ⟨key, -, blocked, -, rfl⟩ := hout
    exact hkept (!blocked) (by cases blocked <;> rfl) rfl
  | aggregate filter keys test =>
    simp only [Logged.outcome_bind, Logged.outcome_monadLift, bind_eq_ok, Logged.outcome_pure,
      Except.ok.injEq] at hout
    obtain ⟨key, -, contributions, -, value, -, passes, -, rfl⟩ := hout
    exact hkept passes rfl rfl

theorem fits_satisfyAll {facts : List Fact} {vars : List String} {conditions : List Condition}
    {tokens found : List Token} (hfound : (satisfyAll facts vars tokens conditions).outcome = .ok found)
    {bound : List String} (hfits : ∀ token ∈ tokens, Fits { facts } bound token) :
    ∀ token ∈ found, Fits { facts } (bound ++ conditions.filterMap (·.var?)) token := by
  induction conditions generalizing tokens bound with
  | nil =>
    obtain rfl : tokens = found := Except.ok.inj hfound
    simpa using hfits
  | cons condition conditions ih =>
    simp only [satisfyAll, Logged.outcome_bind, bind_eq_ok] at hfound
    obtain ⟨next, hnext, hfound⟩ := hfound
    rw [filterMap_cons_append, ← List.append_assoc]
    apply ih hfound
    intro child hchild
    obtain ⟨token, htoken, out, hout, hin⟩ := (Logged.mem_of_gather hnext child).mp hchild
    exact fits_satisfy hout (hfits token htoken) child hin

section Vacant

variable {facts : List Fact} (hdistinct : Distinct facts) {filter : FactFilter}
  (hvacant : ∀ fact ∈ facts, fact.type ≠ filter.type)

include hdistinct hvacant

theorem satisfy_vacant (hsafe : filter.Safe) {keys : List KeyBinding} (test : AggregateTest)
    {vars : List String} {token : Token} (hlive : ({ facts } : WorkingMemory).Live token)
    (huses : ∀ k ∈ keys, k.ref.var ∈ vars.take token.length) :
    ((aggregate filter keys test).satisfy facts vars token).outcome
      = .ok (if test.passesNothing then [token] else []) := by
  obtain ⟨bindings, key, hbindings, hkey⟩ :=
    WorkingMemory.bindingKey_ok (w := { facts }) hdistinct hlive huses
  rw [outcome_satisfy_aggregate hbindings hsafe, hkey]
  simp only [Except.bind, AggregateMemory.contributionsOf_vacant hvacant, AggregateFunction.value_nil,
    AggregateTest.satisfiedBy_ofNothing, Except.map]

/--
Matching a rule from scratch, an aggregate over nothing keeps all tokens that satisfy the conditions before
it, or drops all of them, and then nothing matches.
-/
theorem tokens_vacant {rule : Rule} (hscope : Scoped [] rule.conditions)
    (hsafe : ∀ condition ∈ rule.conditions, condition.Safe) {before after : List Condition}
    {keys : List KeyBinding} {test : AggregateTest}
    (hsplit : rule.conditions = before ++ .aggregate filter keys test :: after) {tokens : List Token}
    (htokens : (satisfyAll facts rule.vars [[]] before).outcome = .ok tokens) :
    (rule.tokens facts).outcome
      = if test.passesNothing then (satisfyAll facts rule.vars tokens after).outcome else .ok [] := by
  have hfits := fits_satisfyAll htokens (fits_nil _)
  have hmem : Condition.aggregate filter keys test ∈ rule.conditions := by simp [hsplit]
  have hi : rule.conditions[before.length]? = some (.aggregate filter keys test) := by simp [hsplit]
  have hvars : ([] ++ before.filterMap Condition.var?).IsPrefix rule.vars := by
    rw [Rule.vars, hsplit, List.filterMap_append]
    exact List.prefix_append _ _
  have halike : ∀ token ∈ tokens,
      ((aggregate filter keys test).satisfy facts rule.vars token).outcome
        = .ok (if test.passesNothing then [token] else []) := by
    intro token htoken
    -- the token is as long as the variables before the aggregate, so that all that this uses is bound
    obtain ⟨hlive, hlength⟩ := hfits token htoken
    apply satisfy_vacant hdistinct hvacant (hsafe _ hmem filter rfl) test hlive
    intro k hk
    have huses := uses_of_scoped hscope hi k.ref.var (List.mem_map.mpr ⟨k, hk, rfl⟩)
    rw [hsplit, List.take_left] at huses
    rwa [(List.prefix_iff_eq_take.mp hvars), ← hlength] at huses
  rw [Rule.tokens, hsplit, outcome_satisfyAll_append, htokens]
  simp only [Except.bind, satisfyAll, Logged.outcome_bind, outcome_gather_alike halike]
  cases test.passesNothing with
  | true => rfl
  | false => exact outcome_satisfyAll_nil facts rule.vars after

end Vacant
end Condition

namespace Network

/--
In the network the stage of an aggregate over nothing answers alike for all tokens before it. When no work
for the rule is left undone, it holds all of them or none.
-/
theorem stage_vacant {net : Network} (h : net.Sound) (hscoped : net.Scoped) {name : String}
    {memory : RuleMemory} (hmemory : net.memory? name = some memory) {position : Nat}
    {filter : FactFilter} {keys : List KeyBinding} {test : AggregateTest}
    (hcondition : memory.rule.conditions[position]? = some (.aggregate filter keys test))
    (hvacant : ∀ fact ∈ net.working.facts, fact.type ≠ filter.type) :
    ∃ stage, memory.stages[position]? = some stage
      ∧ (∀ token ∈ Stage.parents position memory.stages,
        (stage.node.advance net.working memory.rule.vars token).outcome
          = .ok (if test.passesNothing then [token] else []))
      ∧ ((net.Settled name fun _ _ => False) → ∀ token,
        token ∈ stage.tokens ↔ test.passesNothing = true ∧ token ∈ Stage.parents position memory.stages) := by
  obtain ⟨stage, hstage⟩ : ∃ stage, memory.stages[position]? = some stage := by
    have hposition := (List.getElem?_eq_some_iff.mp hcondition).1
    rw [(h.implements name memory hmemory).length_eq] at hposition
    exact ⟨_, List.getElem?_eq_getElem hposition⟩
  obtain ⟨-, condition, hcondition', himplements, -⟩ := h.exists_condition hmemory hstage
  obtain rfl := Option.some.inj (hcondition.symm.trans hcondition')
  have htracks := h.nodes name memory hmemory stage (List.mem_of_getElem? hstage)
  have hadvance : ∀ token ∈ Stage.parents position memory.stages,
      (stage.node.advance net.working memory.rule.vars token).outcome
        = .ok (if test.passesNothing then [token] else []) := by
    intro token htoken
    rw [Stage.parents_eq_final] at htoken
    obtain ⟨hlive, -⟩ := fits_parents h hmemory position token htoken
    have huses := uses_of_parent h (Scoped.confined h hscoped name) hmemory hcondition htoken
    cases hnode : stage.node with
    | aggregate memory' =>
      rw [hnode] at himplements htracks
      obtain ⟨rfl, rfl, rfl⟩ := himplements
      apply Node.advance_vacant h.distinct htracks hvacant hlive
      exact fun k hk => huses k.ref.var (List.mem_map.mpr ⟨k, hk, rfl⟩)
    | _ =>
      rw [hnode] at himplements
      exact False.elim himplements
  refine ⟨stage, hstage, hadvance, ?_⟩
  intro hsettled token
  -- with nothing left undone, what the stage holds is what the tokens before it become
  have hground := (h.grounded name memory hmemory).at hstage
  have hthere := (hsettled memory hmemory).at hstage
  rw [← Stage.parents_eq_final] at hground hthere
  rw [Condition.mem_settled_iff hground hthere]
  constructor
  . rintro ⟨parent, hparent, out, hout, hin⟩
    rw [hadvance parent hparent, Except.ok.injEq] at hout
    rw [← hout] at hin
    split at hin
    . next hpasses =>
      rw [List.mem_singleton.mp hin]
      exact ⟨hpasses, hparent⟩
    . simp at hin
  . rintro ⟨hpasses, hparent⟩
    exact ⟨token, hparent, _, hadvance token hparent, by simp [hpasses]⟩

end Network
end ForwardChaining
