import ForwardChaining.Proofs.Aggregate.Sum
import ForwardChaining.Proofs.Network.Memory
import Mathlib.Data.List.Permutation

/-!
This module contains what a memory of an aggregate gives after any history of facts that came and went,
compared with what the facts that are left give when they are taken afresh in the order of their
identities. Numbers that are equal are kept as the one that came first, so the two agree when no
contributions to the group are the same number in different forms.
-/

namespace ForwardChaining

/-- A fact comes to a memory, or goes. -/
inductive Turnover where
  | comes (fact : Fact)
  | goes (id : Int)

namespace Turnover

/-- The facts that are there after a step. -/
def applied (facts : List Fact) : Turnover → List Fact
  | .comes fact => without fact.id facts ++ [fact]
  | .goes id => without id facts

/-- The facts that have come and not gone since. -/
def standing (steps : List Turnover) : List Fact :=
  steps.foldl applied []

/-- The facts that ever came. -/
def brought (steps : List Turnover) : List Fact :=
  steps.filterMap fun
    | .comes fact => some fact
    | .goes _ => none

theorem distinct_applied {facts : List Fact} (h : Distinct facts) (step : Turnover) :
    Distinct (step.applied facts) := by
  cases step with
  | comes fact => exact distinct_append (distinct_without h fact.id) (unused_without fact.id facts)
  | goes id => exact distinct_without h id

theorem mem_brought_cons {step : Turnover} {steps : List Turnover} {fact : Fact}
    (h : fact ∈ brought steps) : fact ∈ brought (step :: steps) := by
  cases step with
  | comes first => exact List.mem_cons_of_mem first h
  | goes id => exact h

theorem mem_foldl_applied {facts : List Fact} {steps : List Turnover} {fact : Fact}
    (h : fact ∈ steps.foldl applied facts) : fact ∈ facts ∨ fact ∈ brought steps := by
  induction steps generalizing facts with
  | nil => exact .inl h
  | cons step steps ih =>
    rcases ih h with hthere | hlater
    . cases step with
      | comes first =>
        rw [applied, List.mem_append, List.mem_singleton] at hthere
        rcases hthere with hold | rfl
        . exact .inl (List.mem_of_mem_filter hold)
        . exact .inr (List.mem_cons_self ..)
      | goes id => exact .inl (List.mem_of_mem_filter hthere)
    . exact .inr (mem_brought_cons hlater)

end Turnover

namespace AggregateMemory

/-- The memory after a step. A filter that fails on the fact leaves the memory as it is. -/
def turn (memory : AggregateMemory) : Turnover → AggregateMemory
  | .comes fact =>
    match (memory.add fact).outcome with
    | .ok (next, _) => next
    | .error _ => memory
  | .goes id => (memory.remove id).1

/-- The memory after some steps. -/
def turnAll (memory : AggregateMemory) (steps : List Turnover) : AggregateMemory :=
  steps.foldl turn memory

/-- No fact comes while its identity is a member. -/
def Orderly (memory : AggregateMemory) : List Turnover → Prop
  | [] => True
  | step :: steps => (∀ fact, step = .comes fact → memory.members.lookup fact.id = none)
    ∧ (memory.turn step).Orderly steps

theorem mem_contributionsOf {memory : AggregateMemory} {key : Key} {facts : List Fact} {x : Value} :
    x ∈ contributionsOf memory.filter memory.keys memory.test key facts
      ↔ ∃ fact ∈ facts, ∃ k, memory.entry fact = some (k, x) ∧ Key.same k key = true := by
  rw [contributionsOf, List.mem_filterMap]
  refine exists_congr fun fact => and_congr_right fun _ => ?_
  unfold entry
  cases memory.filter.admits fact with
  | false => simp
  | true =>
    cases hsame : Key.same (factKey memory.keys fact) key <;>
      cases memory.test.contribution fact <;> simp [hsame]

section Contributions

variable (filter : FactFilter) (keys : List KeyBinding) (test : AggregateTest) (key : Key)

theorem contributionsOf_mono {facts facts' : List Fact} (h : ∀ fact ∈ facts, fact ∈ facts') :
    ∀ x ∈ contributionsOf filter keys test key facts, x ∈ contributionsOf filter keys test key facts' := by
  intro x hx
  obtain ⟨fact, hfact, hcontributes⟩ := List.mem_filterMap.mp hx
  exact List.mem_filterMap.mpr ⟨fact, h fact hfact, hcontributes⟩

theorem number_of_contributionsOf (facts : List Fact) :
    ∀ x ∈ contributionsOf filter keys test key facts, x.IsNumber := by
  intro x hx
  obtain ⟨fact, -, hcontributes⟩ := List.mem_filterMap.mp hx
  split at hcontributes
  . exact AggregateTest.contribution_number hcontributes
  . cases hcontributes

/-- What some facts contribute to the group of a key, in the order of their identities. -/
def contributionsInOrder (facts : List Fact) : List Value :=
  contributionsOf filter keys test key (facts.mergeSort fun a b => a.id ≤ b.id)

theorem contributionsInOrder_perm (facts : List Fact) :
    (contributionsInOrder filter keys test key facts).Perm
      (contributionsOf filter keys test key facts) :=
  (List.mergeSort_perm facts _).filterMap _

end Contributions

section Turn

variable {memory : AggregateMemory} {facts : List Fact} (h : memory.Tracks facts)
  (hdistinct : Distinct facts)

theorem turn_comes (memory : AggregateMemory) (fact : Fact) :
    memory.turn (.comes fact) = match memory.entry fact with
      | some (key, x) => memory.folded fact.id key x
      | none => memory := by
  unfold turn
  cases haccepts : memory.filter.accepts fact with
  | error fault =>
    have hadd : (memory.add fact).outcome = .error fault := by
      have htest : (memory.filter.test fact).outcome = .error fault := haccepts
      simp only [add, Logged.outcome_bind, htest, Except.bind]
    have hentry : memory.entry fact = none := by
      rw [entry, FactFilter.admits, haccepts]
      rfl
    simp only [hadd, hentry]
  | ok answer =>
    simp only [outcome_add_of_accepts haccepts]
    cases memory.entry fact <;> rfl

theorem frame_turn (memory : AggregateMemory) (step : Turnover) :
    (memory.turn step).filter = memory.filter ∧ (memory.turn step).keys = memory.keys
      ∧ (memory.turn step).test = memory.test := by
  cases step with
  | comes fact =>
    rw [turn_comes]
    cases memory.entry fact <;> exact ⟨rfl, rfl, rfl⟩
  | goes id =>
    unfold turn remove
    dsimp only
    cases memory.members.lookup id with
    | none => exact ⟨rfl, rfl, rfl⟩
    | some found =>
      dsimp only
      split <;> exact ⟨rfl, rfl, rfl⟩

include h

theorem tracks_turn (hdistinct : Distinct facts) {step : Turnover}
    (hfresh : ∀ fact, step = .comes fact → memory.members.lookup fact.id = none) :
    (memory.turn step).Tracks (step.applied facts) := by
  cases step with
  | goes id => exact (tracks_remove h hdistinct id).2.2.2.1
  | comes fact =>
    have hwithout := tracks_without h (hfresh fact rfl)
    rw [turn_comes]
    cases hentry : memory.entry fact with
    | none => exact tracks_ignored hwithout hentry
    | some found => exact (tracks_folded hwithout (unused_without _ _) hentry).1

theorem tallied_turn (hdistinct : Distinct facts) {step : Turnover}
    (hfresh : ∀ fact, step = .comes fact → memory.members.lookup fact.id = none) {key : Key}
    (hkey : key.Frozen) {P : Value → Prop} (htallied : memory.Tallied key P)
    (hP : ∀ fact, step = .comes fact → ∀ k x, memory.entry fact = some (k, x) →
      Key.same k key = true → P x) : (memory.turn step).Tallied key P := by
  cases step with
  | goes id => exact tallied_remove h hdistinct id hkey htallied
  | comes fact =>
    have hwithout := tracks_without h (hfresh fact rfl)
    rw [turn_comes]
    cases hentry : memory.entry fact with
    | none => exact htallied
    | some found =>
      exact tallied_folded hwithout (unused_without _ _) (frozen_of_entry hentry) hkey
        (AggregateTest.contribution_number (eq_of_entry hentry).2) (hP fact rfl found.1 found.2 hentry)
        htallied

end Turn

theorem tracks_new (filter : FactFilter) (keys : List KeyBinding) (test : AggregateTest) :
    ({ filter, keys, test } : AggregateMemory).Tracks [] :=
  ⟨rfl, .nil, fun _ _ => rfl, fun _ _ => List.forall_mem_nil _⟩

/-- A memory whose steps are in order tracks the facts that are left, and counts what they contribute. -/
theorem tracks_turnAll {memory : AggregateMemory} {facts : List Fact} (h : memory.Tracks facts)
    (hdistinct : Distinct facts) {steps : List Turnover} (horderly : memory.Orderly steps) {key : Key}
    (hkey : key.Frozen) {P : Value → Prop} (htallied : memory.Tallied key P)
    (hP : ∀ x ∈ contributionsOf memory.filter memory.keys memory.test key (Turnover.brought steps), P x) :
    (memory.turnAll steps).Tracks (steps.foldl Turnover.applied facts)
      ∧ (memory.turnAll steps).Tallied key P
      ∧ (memory.turnAll steps).filter = memory.filter ∧ (memory.turnAll steps).keys = memory.keys
      ∧ (memory.turnAll steps).test = memory.test := by
  induction steps generalizing memory facts with
  | nil => exact ⟨h, htallied, rfl, rfl, rfl⟩
  | cons step steps ih =>
    obtain ⟨hfresh, hrest⟩ := horderly
    obtain ⟨hfilter, hkeys, htest⟩ := frame_turn memory step
    have hnow : ∀ fact, step = .comes fact → ∀ k x, memory.entry fact = some (k, x) →
        Key.same k key = true → P x := by
      rintro fact rfl k x hentry hsame
      exact hP x (mem_contributionsOf.mpr ⟨fact, List.mem_cons_self .., k, hentry, hsame⟩)
    have hlater : ∀ x ∈ contributionsOf (memory.turn step).filter (memory.turn step).keys
        (memory.turn step).test key (Turnover.brought steps), P x := by
      rw [hfilter, hkeys, htest]
      intro x hx
      obtain ⟨fact, hfact, hentry⟩ := mem_contributionsOf.mp hx
      exact hP x (mem_contributionsOf.mpr ⟨fact, Turnover.mem_brought_cons hfact, hentry⟩)
    obtain ⟨htracks, hcounted, hfilter', hkeys', htest'⟩ := ih (tracks_turn h hdistinct hfresh)
      (Turnover.distinct_applied hdistinct step) hrest
      (tallied_turn h hdistinct hfresh hkey htallied hnow) hlater
    exact ⟨htracks, hcounted, hfilter'.trans hfilter, hkeys'.trans hkeys, htest'.trans htest⟩

theorem value_tallied {memory : AggregateMemory} {facts : List Fact} (h : memory.Tracks facts)
    {key : Key} (hkey : key.Frozen) {P : Value → Prop} (htallied : memory.Tallied key P) (n : Nat) :
    ∃ xs, memory.value n key = memory.test.function.value n xs ∧ (∀ x ∈ xs, P x)
      ∧ (xs.map Value.sense?).Perm ((contributions key memory.members).map Value.sense?) := by
  have hcounted := h.counted key hkey
  unfold value
  cases hfind : Key.find? key memory.groups with
  | none =>
    rw [hfind] at hcounted
    rw [show contributions key memory.members = [] from hcounted]
    exact ⟨[], rfl, List.forall_mem_nil _, .refl _⟩
  | some group =>
    rw [hfind] at hcounted
    obtain ⟨hdraws, hperm⟩ := htallied group hfind
    refine ⟨group.tally.elements, ?_, hdraws.elements, hperm⟩
    cases hfunction : memory.test.function with
    | count =>
      have hlength := hperm.length_eq
      rw [List.length_map, List.length_map] at hlength
      rw [AggregateFunction.value, hlength, ← hcounted.1]
    | sum | min | max => rfl

end AggregateMemory

namespace AggregateFunction

/-- No two of the values are the same number in different forms. -/
def Apart (values : List Value) : Prop :=
  ∀ x ∈ values, ∀ y ∈ values, x.same y = true → x = y

/--
How the value that a memory has kept for a group agrees with the one that is computed afresh from what is
contributed now, by what was ever contributed to the group.
-/
structure Agrees (f : AggregateFunction) (left made : List Value) (kept afresh : Except Fault Value) :
    Prop where
  count : f = .count → kept = afresh
  /-- Without a NaN the least and the greatest are the same number, perhaps in different forms. -/
  number : f = .min ∨ f = .max → (∀ x ∈ left, ∃ p, x.Ranks p) →
    ∃ m m', kept = .ok m ∧ afresh = .ok m' ∧ m.same m' = true
  extreme : Apart made → f = .min ∨ f = .max → (∀ x ∈ left, ∃ p, x.Ranks p) → kept = afresh
  ints : Apart made → (∀ x ∈ left, x.IsInt) → ∃ x, kept = .ok x ∧ afresh = .ok x ∧ x.IsPlain
  /-- Only an overflow of a partial sum depends on the order. -/
  sum : Apart made → f = .sum →
    kept = afresh ∨ kept = .error .sumOverflow ∨ afresh = .error .sumOverflow

theorem agrees_of_sense (f : AggregateFunction) (n : Nat) {xs left made : List Value}
    (hxs : ∀ x ∈ xs, x ∈ made) (hleft : ∀ x ∈ left, x ∈ made) (hnumbers : ∀ x ∈ made, x.IsNumber)
    (hsense : (xs.map Value.sense?).Perm (left.map Value.sense?)) :
    Agrees f left made (f.value n xs) (f.value n left) := by
  have hranks : (∀ x ∈ left, ∃ p, x.Ranks p) → ∀ x ∈ xs, ∃ p, x.Ranks p := by
    intro hranks x hx
    obtain ⟨y, hy, heq⟩ := List.mem_map.mp (hsense.mem_iff.mp (List.mem_map_of_mem hx))
    obtain ⟨p, hp⟩ := hranks y hy
    exact ⟨p, hnumbers x (hxs x hx), heq.symm.trans hp.2⟩
  have hperm : Apart made → xs.Perm left := by
    intro hapart
    apply Value.perm_of_sense hsense
    intro x hx y hy heq
    exact hapart x (hxs x hx) y (hleft y hy) ((hnumbers x (hxs x hx)).same_iff.mpr heq)
  constructor
  . rintro rfl
    have hlength := hsense.length_eq
    rw [List.length_map, List.length_map] at hlength
    rw [value, value, hlength]
  . intro hf hrank
    obtain ⟨m, m', hm, hm', hsame, -⟩ := value_extreme hf n (hranks hrank) hrank hsense
    exact ⟨m, m', hm, hm', hsame⟩
  . intro hapart hf hrank
    obtain ⟨m, m', hm, hm', hsame, ⟨rfl, rfl⟩ | ⟨hmem, hmem'⟩⟩ :=
      value_extreme hf n (hranks hrank) hrank hsense
    . rw [hm, hm']
    . rw [hm, hm', hapart m (hxs m hmem) m' (hleft m' hmem') hsame]
  . intro hapart hints
    have hints' : ∀ x ∈ xs, x.IsInt := fun x hx => hints x ((hperm hapart).mem_iff.mp hx)
    exact value_perm f n hints' (hperm hapart)
  . rintro hapart rfl
    exact Value.exactSum_perm n (fun x hx => hnumbers x (hxs x hx)) (hperm hapart)

end AggregateFunction

namespace AggregateMemory

/--
After any history of facts that came and went, a memory of an aggregate has the value that the facts left
have when they are taken afresh: always for a count, and for the other functions when no contributions
that were ever made to the group are the same number in different forms, up to where the order of the
contributions shows.
-/
theorem value_of_history (filter : FactFilter) (keys : List KeyBinding) (test : AggregateTest)
    {steps : List Turnover} (horderly : ({ filter, keys, test } : AggregateMemory).Orderly steps)
    {key : Key} (hkey : key.Frozen) (n : Nat) :
    test.function.Agrees (contributionsInOrder filter keys test key (Turnover.standing steps))
      (contributionsOf filter keys test key (Turnover.brought steps))
      ((({ filter, keys, test } : AggregateMemory).turnAll steps).value n key)
      (test.function.value n (contributionsInOrder filter keys test key (Turnover.standing steps))) := by
  obtain ⟨hlast, hcounted, hfilter, hkeys, htest⟩ :=
    tracks_turnAll (tracks_new filter keys test) List.nodup_nil horderly hkey
      (P := (· ∈ contributionsOf filter keys test key (Turnover.brought steps))) nofun fun x hx => hx
  obtain ⟨xs, hvalue, hxs, hsense⟩ := value_tallied hlast hkey hcounted n
  rw [contributions_eq hlast, hfilter, hkeys, htest] at hsense
  have hperm := contributionsInOrder_perm filter keys test key (Turnover.standing steps)
  rw [hvalue, htest]
  refine AggregateFunction.agrees_of_sense test.function n hxs ?_
    (number_of_contributionsOf filter keys test key _) (hsense.trans (hperm.map _).symm)
  intro x hx
  refine contributionsOf_mono filter keys test key ?_ x (hperm.mem_iff.mp hx)
  intro fact hfact
  exact (Turnover.mem_foldl_applied hfact).resolve_left nofun

/-- A fact with an amount. -/
def amountFact (id : Int) (amount : Value) : Fact where
  id
  type := "payment"
  data := [(.text "amount", amount)]

/-- A sum over the amounts of all payments. -/
def amountTest : AggregateTest where
  function := .sum
  field := some "amount"

/-- A memory of the sum of all payments. -/
def paymentMemory : AggregateMemory where
  filter := { type := "payment" }
  test := amountTest

def oneAndHalf : Binary64 :=
  .finite false 6755399441055744 (-52) (by decide)

def one : Binary64 :=
  .finite false 4503599627370496 (-52) (by decide)

/-- Two to the power of 53, behind which not every integer is a binary64 number. -/
def wholeLimit : Binary64 :=
  .finite false 4503599627370496 1 (by decide)

/-- A payment comes and goes again, while two others stay whose sum no binary64 number is near enough to. -/
def interlude : List Turnover :=
  [.comes (amountFact 1 (.float oneAndHalf)), .comes (amountFact 2 (.int 9007199254740992)),
    .comes (amountFact 3 (.int 1)), .goes 1]

/-- Of two payments of the same number the first goes, and a large one comes. -/
def succession : List Turnover :=
  [.comes (amountFact 1 (.float one)), .comes (amountFact 2 (.int 1)), .goes 1,
    .comes (amountFact 3 (.int 9007199254740992))]

/-- With only integers left, the sum is exact. -/
theorem value_of_history_interlude :
    (paymentMemory.turnAll interlude).value 0 [] = .ok (.int 9007199254740993)
      ∧ amountTest.function.value 0
        (contributionsInOrder paymentMemory.filter [] amountTest [] (Turnover.standing interlude))
          = .ok (.int 9007199254740993) := by
  have horderly : paymentMemory.Orderly interlude := by
    refine ⟨?_, ?_, ?_, ?_, trivial⟩ <;> rintro fact heq <;> cases heq <;> rfl
  have hmade : contributionsOf paymentMemory.filter [] amountTest [] (Turnover.brought interlude)
      = [.float oneAndHalf, .int 9007199254740992, .int 1] := by
    rfl
  have hleft : contributionsInOrder paymentMemory.filter [] amountTest [] (Turnover.standing interlude)
      = [.int 9007199254740992, .int 1] := by
    cbv
  have hapart : AggregateFunction.Apart [.float oneAndHalf, .int 9007199254740992, .int 1] := by
    intro x hx y hy hsame
    simp only [List.mem_cons, List.not_mem_nil, or_false] at hx hy
    rcases hx with rfl | rfl | rfl <;> rcases hy with rfl | rfl | rfl <;>
      first | rfl | exact absurd hsame (by decide +kernel)
  have hints : ∀ x ∈ [Value.int 9007199254740992, .int 1], x.IsInt := by
    intro x hx
    simp only [List.mem_cons, List.not_mem_nil, or_false] at hx
    rcases hx with rfl | rfl <;> exact ⟨_, rfl⟩
  have hagrees := value_of_history paymentMemory.filter [] amountTest horderly (List.forall_mem_nil _) 0
  rw [hmade, hleft] at hagrees
  obtain ⟨x, hkept, hafresh, -⟩ := hagrees.ints hapart hints
  obtain rfl : x = .int 9007199254740993 := Except.ok.inj (hafresh.symm.trans rfl)
  rw [hleft]
  exact ⟨hkept, hafresh⟩

/--
The integer one is counted as the number that came first, so that the sum of two integers is not exact.
-/
theorem value_of_succession : paymentMemory.Orderly succession
    ∧ (paymentMemory.turnAll succession).value 0 [] = .ok (.float wholeLimit)
    ∧ amountTest.function.value 0
      (contributionsInOrder paymentMemory.filter [] amountTest [] (Turnover.standing succession))
        = .ok (.int 9007199254740993) := by
  have hkept : ((paymentMemory.turnAll succession).value 0 []).toOption.bind Value.number?
      = some (.float wholeLimit) := by
    decide +kernel
  refine ⟨?_, ?_, by cbv⟩
  . refine ⟨?_, ?_, ?_, ?_, trivial⟩ <;> rintro fact heq <;> cases heq <;> rfl
  . obtain ⟨x, hx, hnumber⟩ := Option.bind_eq_some_iff.mp hkept
    cases hvalue : (paymentMemory.turnAll succession).value 0 [] with
    | error fault =>
      rw [hvalue] at hx
      cases hx
    | ok y =>
      rw [hvalue] at hx
      obtain rfl : y = x := Option.some.inj hx
      cases y <;> cases hnumber
      rfl

end AggregateMemory
end ForwardChaining
