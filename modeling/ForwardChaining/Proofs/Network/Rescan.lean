import ForwardChaining.Network.Rescan
import ForwardChaining.Proofs.Network.Memory
import ForwardChaining.Proofs.Network.Stage

/-!
This module contains the proof that stages that are settled hold what matching from scratch finds. A
node that keeps the memory of a condition gives for every token of live facts what the condition gives.
-/

namespace ForwardChaining

namespace WorkingMemory

variable {w w' : WorkingMemory}

/-- The token binds facts that are there. -/
def Live (w : WorkingMemory) (token : Token) : Prop :=
  ∀ id ∈ token, ∃ fact ∈ w.facts, fact.id = id

theorem find?_eq_some {facts : List Fact} (hdistinct : Distinct facts) {fact : Fact}
    (h : fact ∈ facts) : facts.find? (·.id = fact.id) = some fact := by
  induction facts with
  | nil => simp at h
  | cons first facts ih =>
    rw [Distinct, List.map_cons, List.nodup_cons] at hdistinct
    rcases List.mem_cons.mp h with rfl | h
    . simp
    . have hne : first.id ≠ fact.id := by
        intro heq
        apply hdistinct.1
        rw [heq]
        exact List.mem_map.mpr ⟨fact, h, rfl⟩
      rw [List.find?_cons_of_neg (by simpa using hne)]
      exact ih hdistinct.2 h

theorem find_eq (hdistinct : Distinct w.facts) {fact : Fact} (h : fact ∈ w.facts) :
    w.find fact.id = .ok fact := by
  unfold find
  rw [find?_eq_some hdistinct h]

theorem bindings_congr {token : Token} (h : ∀ id ∈ token, w.find id = w'.find id)
    (vars : List String) : w.bindings vars token = w'.bindings vars token := by
  induction token generalizing vars with
  | nil => cases vars <;> rfl
  | cons id token ih =>
    cases vars with
    | nil => rfl
    | cons var vars =>
      simp only [bindings]
      rw [h id (by simp), ih fun other hother => h other (by simp [hother])]

theorem bindings_ok (hdistinct : Distinct w.facts) {token : Token} (hlive : w.Live token)
    (vars : List String) :
    ∃ bindings, w.bindings vars token = .ok bindings
      ∧ bindings.map (·.1) = vars.take token.length ∧ ∀ binding ∈ bindings, binding.2 ∈ w.facts := by
  induction token generalizing vars with
  | nil => exact ⟨[], by cases vars <;> rfl, by simp, by simp⟩
  | cons id token ih =>
    cases vars with
    | nil => exact ⟨[], rfl, by simp, by simp⟩
    | cons var vars =>
      obtain ⟨fact, hmem, rfl⟩ := hlive id (by simp)
      obtain ⟨bindings, hbindings, hvars, hfacts⟩ :=
        ih (fun other hother => hlive other (by simp [hother])) vars
      refine ⟨(var, fact) :: bindings, ?_, by simp [hvars], ?_⟩
      . simp only [WorkingMemory.bindings]
        rw [find_eq hdistinct hmem, hbindings]
        rfl
      . rw [List.forall_mem_cons]
        exact ⟨hmem, hfacts⟩

theorem find_perm (hdistinct : Distinct w.facts) (hperm : w'.facts.Perm w.facts) {token : Token}
    (hlive : w.Live token) : ∀ id ∈ token, w'.find id = w.find id := by
  intro id hid
  obtain ⟨fact, hmem, rfl⟩ := hlive id hid
  have hdistinct' : Distinct w'.facts := (hperm.map _).nodup_iff.mpr hdistinct
  rw [find_eq hdistinct hmem, find_eq hdistinct' (hperm.mem_iff.mpr hmem)]

end WorkingMemory

namespace Node

/-- The node does the work of a condition. -/
def Implements (alphas : List AlphaMemory) : Condition → Node → Prop
  | .pattern filter _, .pattern alpha =>
    ∃ memory, alphas[alpha]? = some memory ∧ memory.filter.identity = filter.identity
  | .join across, .join across' => across' = across
  | .negation filter keys, .negation memory => memory.filter = filter ∧ memory.keys = keys
  | .aggregate filter keys test, .aggregate memory =>
    memory.filter = filter ∧ memory.keys = keys ∧ memory.test = test
  | _, _ => False

theorem Implements.cases {alphas : List AlphaMemory}
    {motive : (condition : Condition) → (node : Node) → node.Implements alphas condition → Prop}
    (pattern : ∀ {filter var alpha memory} (hmemory : alphas[alpha]? = some memory)
      (hidentity : memory.filter.identity = filter.identity),
      motive (.pattern filter var) (.pattern alpha) ⟨memory, hmemory, hidentity⟩)
    (join : ∀ across, motive (.join across) (.join across) rfl)
    (negation : ∀ memory : NegationMemory,
      motive (.negation memory.filter memory.keys) (.negation memory) ⟨rfl, rfl⟩)
    (aggregate : ∀ memory : AggregateMemory,
      motive (.aggregate memory.filter memory.keys memory.test) (.aggregate memory) ⟨rfl, rfl, rfl⟩)
    {condition : Condition} {node : Node} (h : node.Implements alphas condition) :
    motive condition node h := by
  cases condition <;> cases node <;> try exact False.elim h
  case pattern.pattern =>
    obtain ⟨memory, hmemory, hidentity⟩ := h
    exact pattern hmemory hidentity
  case join.join across across' =>
    obtain rfl : across' = across := h
    exact join across'
  case negation.negation filter keys memory =>
    obtain ⟨rfl, rfl⟩ := h
    exact negation memory
  case aggregate.aggregate filter keys test memory =>
    obtain ⟨rfl, rfl, rfl⟩ := h
    exact aggregate memory

theorem implements_of_filters {alphas alphas' : List AlphaMemory}
    (hfilters : (alphas.map (·.filter)).IsPrefix (alphas'.map (·.filter))) {condition : Condition}
    {node : Node} (h : node.Implements alphas condition) : node.Implements alphas' condition := by
  cases h using Implements.cases with
  | @pattern filter var alpha memory hmemory hidentity =>
    have hold : (alphas.map (·.filter))[alpha]? = some memory.filter := by
      rw [List.getElem?_map, hmemory]
      rfl
    obtain ⟨hlt, hfilter⟩ := List.getElem?_eq_some_iff.mp hold
    have hnew := List.prefix_iff_getElem?.mp hfilters alpha hlt
    rw [hfilter, List.getElem?_map, Option.map_eq_some_iff] at hnew
    obtain ⟨memory', hmemory', hsame⟩ := hnew
    exact ⟨memory', hmemory', by rw [hsame, hidentity]⟩
  | join => exact rfl
  | negation => exact ⟨rfl, rfl⟩
  | aggregate => exact ⟨rfl, rfl, rfl⟩

/-- The memory of the node holds what the facts contribute. -/
def Tracks (facts : List Fact) : Node → Prop
  | .negation memory => memory.Tracks facts
  | .aggregate memory => memory.Tracks facts
  | _ => True

/-- What is contributed to an aggregate are integers. -/
def Exact : Node → Prop
  | .aggregate memory => memory.Exact
  | _ => True

end Node

namespace Condition

/-! ### Matching from scratch -/

theorem outcome_bindNext {filter : FactFilter} (hsafe : filter.Safe) (token : Token) (fact : Fact) :
    (bindNext filter token fact).outcome
      = .ok (if fact.id ∉ token ∧ filter.admits fact then [token ++ [fact.id]] else []) := by
  unfold bindNext
  by_cases hmem : fact.id ∈ token
  . simp [hmem]
  . simp only [List.contains_iff_mem, hmem, if_false, Logged.outcome_bind,
      FactFilter.outcome_test hsafe, Except.bind, Logged.outcome_pure]
    cases filter.admits fact <;> simp

theorem outcome_concerns {filter : FactFilter} (hsafe : filter.Safe) (keys : List KeyBinding)
    (key : Key) (fact : Fact) :
    (concerns filter keys key fact).outcome
      = .ok (filter.admits fact && Key.same (factKey keys fact) key) := by
  unfold concerns
  simp only [Logged.outcome_bind, FactFilter.outcome_test hsafe, Except.bind]
  cases filter.admits fact <;> rfl

theorem outcome_exists? {p : Fact → Logged Bool} {q : Fact → Bool} {facts : List Fact}
    (h : ∀ fact ∈ facts, (p fact).outcome = .ok (q fact)) :
    (Logged.exists? p facts).outcome = .ok (facts.any q) := by
  induction facts with
  | nil => rfl
  | cons fact facts ih =>
    simp only [Logged.exists?, Logged.outcome_bind, h fact (by simp), Except.bind]
    have hrest := ih fun other hother => h other (by simp [hother])
    cases hq : q fact with
    | true => simp [hq]
    | false => simpa [hq] using hrest

theorem outcome_gather_contributions {filter : FactFilter} (hsafe : filter.Safe)
    (keys : List KeyBinding) (test : AggregateTest) (key : Key) (facts : List Fact) :
    (Logged.gather (contributionOf filter keys test key) facts).outcome
      = .ok (AggregateMemory.contributionsOf filter keys test key facts) := by
  induction facts with
  | nil => rfl
  | cons fact facts ih =>
    rw [Logged.outcome_gather_cons, ih]
    unfold contributionOf AggregateMemory.contributionsOf
    simp only [Logged.outcome_bind, outcome_concerns hsafe, Except.bind, Except.map,
      Logged.outcome_pure, List.filterMap_cons]
    cases filter.admits fact && Key.same (factKey keys fact) key with
    | false => simp
    | true => cases hx : test.contribution fact <;> simp

theorem contributionsOf_candidates (filter : FactFilter) (keys : List KeyBinding)
    (test : AggregateTest) (key : Key) (facts : List Fact) :
    AggregateMemory.contributionsOf filter keys test key (candidates filter facts)
      = AggregateMemory.contributionsOf filter keys test key facts := by
  unfold AggregateMemory.contributionsOf candidates
  rw [List.filterMap_filter]
  congr
  funext fact
  by_cases htype : fact.type = filter.type
  . simp [htype]
  . have hnot : filter.admits fact = false := by
      rw [Bool.eq_false_iff]
      exact fun h => htype (FactFilter.type_of_admits h)
    simp [htype, hnot]

theorem any_candidates (filter : FactFilter) (keys : List KeyBinding) (key : Key)
    (facts : List Fact) :
    ((candidates filter facts).any fun fact =>
        filter.admits fact && Key.same (factKey keys fact) key)
      = facts.any fun fact => filter.admits fact && Key.same (factKey keys fact) key := by
  unfold candidates
  rw [List.any_filter]
  congr
  funext fact
  by_cases htype : fact.type = filter.type
  . simp [htype]
  . have hnot : filter.admits fact = false := by
      rw [Bool.eq_false_iff]
      exact fun h => htype (FactFilter.type_of_admits h)
    simp [hnot]

theorem blocked_eq {memory : NegationMemory} {facts : List Fact} (h : memory.Tracks facts)
    {key : Key} (hkey : key.Frozen) :
    memory.blocked key
      = facts.any fun fact =>
          memory.filter.admits fact && Key.same (factKey memory.keys fact) key := by
  unfold NegationMemory.blocked
  rw [h.count key hkey, h.members, Bool.eq_iff_iff, decide_eq_true_iff, List.countP_pos_iff,
    List.any_eq_true]
  simp only [Members.ofFacts, List.mem_filterMap, Option.map_eq_some_iff, Bool.and_eq_true]
  constructor
  . rintro ⟨m, ⟨fact, hfact, k, hk, rfl⟩, hsame⟩
    unfold NegationMemory.entry at hk
    split at hk
    . next hadmits =>
      cases hk
      exact ⟨fact, hfact, hadmits, hsame⟩
    . cases hk
  . rintro ⟨fact, hfact, hadmits, hsame⟩
    exact ⟨(fact.id, factKey memory.keys fact),
      ⟨fact, hfact, _, by rw [NegationMemory.entry, if_pos hadmits], rfl⟩, hsame⟩

/--
What makes the nodes over some facts comparable with matching other facts from scratch: the memories
are in step, and the facts are the same as far as they are relevant.
-/
structure Comparable (w : WorkingMemory) (relevant : Fact → Bool) (facts : List Fact) : Prop where
  perm : (facts.filter relevant).Perm (w.facts.filter relevant)
  distinct : Distinct w.facts
  distinct' : Distinct facts
  alphas : ∀ memory ∈ w.alphas, memory.Tracks w.facts

/-- Filters that share a memory admit the same facts. -/
def Shares (w : WorkingMemory) : Condition → Prop
  | .pattern filter _ => ∀ memory ∈ w.alphas, memory.filter.identity = filter.identity →
    ∀ fact ∈ w.facts, memory.filter.admits fact = filter.admits fact
  | _ => True

section Satisfy

variable {facts : List Fact} {vars : List String} {token : Token} {bindings : Bindings}
  (h : ({ facts } : WorkingMemory).bindings vars token = .ok bindings)

include h

theorem outcome_satisfy_pattern (filter : FactFilter) (var : String) :
    ((pattern filter var).satisfy facts vars token).outcome
      = (Logged.gather (bindNext filter token) (candidates filter facts)).outcome := by
  unfold satisfy
  simp only [Logged.outcome_bind, Logged.outcome_monadLift, h, Except.bind]

theorem outcome_satisfy_join (across : JoinCondition) :
    ((join across).satisfy facts vars token).outcome
      = (across.holds bindings).map fun holds => if holds then [token] else [] := by
  unfold satisfy
  simp only [Logged.outcome_bind, Logged.outcome_monadLift, h, Except.bind]
  rfl

theorem outcome_satisfy_negation {filter : FactFilter} (hsafe : filter.Safe)
    (keys : List KeyBinding) :
    ((negation filter keys).satisfy facts vars token).outcome
      = (bindingKey keys bindings).map fun key =>
          if facts.any fun fact => filter.admits fact && Key.same (factKey keys fact) key then []
          else [token] := by
  unfold satisfy
  simp only [Logged.outcome_bind, Logged.outcome_monadLift, h, Except.bind]
  cases bindingKey keys bindings with
  | error fault => rfl
  | ok key =>
    simp only [Except.map, outcome_exists? fun fact _ => outcome_concerns hsafe keys key fact,
      any_candidates, Logged.outcome_pure]

theorem outcome_satisfy_aggregate {filter : FactFilter} (hsafe : filter.Safe)
    (keys : List KeyBinding) (test : AggregateTest) :
    ((aggregate filter keys test).satisfy facts vars token).outcome
      = (bindingKey keys bindings).bind fun key =>
          ((test.function.value 0 (AggregateMemory.contributionsOf filter keys test key facts)).bind
            test.satisfiedBy).map fun passes => if passes then [token] else [] := by
  unfold satisfy
  simp only [Logged.outcome_bind, Logged.outcome_monadLift, h, Except.bind]
  cases bindingKey keys bindings with
  | error fault => rfl
  | ok key =>
    simp only [outcome_gather_contributions hsafe, contributionsOf_candidates]
    cases test.function.value 0
        (AggregateMemory.contributionsOf filter keys test key facts) with
    | error fault => rfl
    | ok x => rfl

end Satisfy

theorem mem_satisfy_pattern {filter : FactFilter} (hsafe : filter.Safe) (facts : List Fact)
    (token : Token) :
    ∃ out, (Logged.gather (bindNext filter token) (candidates filter facts)).outcome = .ok out
      ∧ ∀ child, child ∈ out ↔ ∃ fact ∈ facts, filter.admits fact = true ∧ fact.id ∉ token
        ∧ child = token ++ [fact.id] := by
  obtain ⟨out, hout⟩ :
      ∃ out, (Logged.gather (bindNext filter token) (candidates filter facts)).outcome = .ok out :=
    Logged.gather_ok_of_forall fun fact _ => ⟨_, outcome_bindNext hsafe token fact⟩
  refine ⟨out, hout, ?_⟩
  intro child
  rw [Logged.mem_of_gather hout]
  constructor
  . rintro ⟨fact, hfact, found, hfound, hchild⟩
    rw [outcome_bindNext hsafe, Except.ok.injEq] at hfound
    rw [← hfound] at hchild
    split at hchild
    . next h =>
      rw [List.mem_singleton] at hchild
      exact ⟨fact, List.mem_of_mem_filter hfact, h.2, h.1, hchild⟩
    . simp at hchild
  . rintro ⟨fact, hfact, hadmits, hnew, rfl⟩
    refine ⟨fact, ?_, _, outcome_bindNext hsafe token fact, by simp [hnew, hadmits]⟩
    simp only [candidates, List.mem_filter, decide_eq_true_eq]
    exact ⟨hfact, FactFilter.type_of_admits hadmits⟩

theorem admits_of_members {w : WorkingMemory} (h : ∀ memory ∈ w.alphas, memory.Tracks w.facts)
    {alpha : Nat} {memory : AlphaMemory} (hmemory : w.alphas[alpha]? = some memory) (id : Int) :
    id ∈ w.members alpha
      ↔ ∃ fact ∈ w.facts, fact.id = id ∧ memory.filter.admits fact = true := by
  unfold WorkingMemory.members
  rw [hmemory]
  exact AlphaMemory.mem_of_tracks (h memory (List.mem_of_getElem? hmemory)) id

/-- The node does the work of the condition, and everything it depends on is in step. -/
structure ServedBy (w : WorkingMemory) (condition : Condition) (node : Node) : Prop where
  implements : node.Implements w.alphas condition
  tracks : node.Tracks w.facts
  exact : node.Exact
  shares : condition.Shares w
  safe : condition.Safe

/-- The condition only takes relevant facts. -/
def Within (relevant : Fact → Bool) (condition : Condition) : Prop :=
  ∀ filter ∈ condition.filter?, ∀ fact, filter.admits fact = true → relevant fact = true

/-- The token binds relevant facts that are there. -/
def Binds (w : WorkingMemory) (relevant : Fact → Bool) (token : Token) : Prop :=
  ∀ id ∈ token, ∃ fact ∈ w.facts, relevant fact = true ∧ fact.id = id

theorem live_of_binds {w : WorkingMemory} {relevant : Fact → Bool} {token : Token}
    (h : Binds w relevant token) : w.Live token := by
  intro id hid
  obtain ⟨fact, hfact, -, heq⟩ := h id hid
  exact ⟨fact, hfact, heq⟩

theorem mem_settled_iff {w : WorkingMemory} {vars : List String} {parents : List Token}
    {stage : Stage} (hground : stage.Grounded w parents)
    (hsettled : stage.Settled w vars (fun _ => False) parents) (child : Token) :
    child ∈ stage.tokens ↔ ∃ token ∈ parents, stage.node.Yields w vars token child := by
  constructor
  . intro hmem
    obtain ⟨token, htoken, hchild⟩ := hground.closed child hmem
    exact ⟨token, htoken, (hsettled token htoken child hchild id).mp hmem⟩
  . rintro ⟨token, htoken, hyields⟩
    exact (hsettled token htoken child (Node.child_of_yields hyields) id).mpr hyields

/-- Both give the same tokens, in whatever order, or both fail. -/
inductive Concur : Except Fault (List Token) → Except Fault (List Token) → Prop
  | ok {out out' : List Token} (h : ∀ child, child ∈ out ↔ child ∈ out') : Concur (.ok out) (.ok out')
  | error (fault fault' : Fault) : Concur (.error fault) (.error fault')

theorem Concur.refl (a : Except Fault (List Token)) : Concur a a := by
  cases a with
  | error fault => exact .error fault fault
  | ok out => exact .ok fun _ => Iff.rfl

theorem Concur.ok_iff {a b : Except Fault (List Token)} (h : Concur a b) :
    (∃ out, a = .ok out) ↔ ∃ out, b = .ok out := by
  cases h <;> simp

theorem Concur.mem_iff {a b : Except Fault (List Token)} (h : Concur a b) (child : Token) :
    (∃ out, a = .ok out ∧ child ∈ out) ↔ ∃ out, b = .ok out ∧ child ∈ out := by
  cases h with
  | ok h => simpa using h child
  | error => simp

section Agrees

variable {w : WorkingMemory} {relevant : Fact → Bool} {facts : List Fact}
  (h : Comparable w relevant facts)

include h

theorem Comparable.mem_iff {fact : Fact} (hrelevant : relevant fact = true) :
    fact ∈ facts ↔ fact ∈ w.facts := by
  have := h.perm.mem_iff (a := fact)
  simpa [List.mem_filter, hrelevant] using this

theorem Comparable.bindings_eq {token : Token} (hbinds : Binds w relevant token)
    (vars : List String) :
    ({ facts } : WorkingMemory).bindings vars token = w.bindings vars token := by
  apply WorkingMemory.bindings_congr
  intro id hid
  obtain ⟨fact, hfact, hrelevant, rfl⟩ := hbinds id hid
  rw [WorkingMemory.find_eq h.distinct hfact]
  have hfact' : fact ∈ ({ facts } : WorkingMemory).facts := (h.mem_iff hrelevant).mpr hfact
  exact WorkingMemory.find_eq h.distinct' hfact'

theorem Comparable.any_eq {p : Fact → Bool} (hp : ∀ fact, p fact = true → relevant fact = true) :
    facts.any p = w.facts.any p := by
  have hfilter : ∀ facts : List Fact, facts.any p = (facts.filter relevant).any p := by
    intro facts
    rw [List.any_filter]
    congr
    funext fact
    cases hfact : p fact with
    | false => simp
    | true => simp [hp fact hfact]
  rw [hfilter facts, hfilter w.facts, h.perm.any_eq]

theorem Comparable.contributions_perm {filter : FactFilter}
    (hwithin : ∀ fact, filter.admits fact = true → relevant fact = true) (keys : List KeyBinding)
    (test : AggregateTest) (key : Key) :
    (AggregateMemory.contributionsOf filter keys test key facts).Perm
      (AggregateMemory.contributionsOf filter keys test key w.facts) := by
  have hfilter : ∀ facts : List Fact, AggregateMemory.contributionsOf filter keys test key facts
      = AggregateMemory.contributionsOf filter keys test key (facts.filter relevant) := by
    intro facts
    unfold AggregateMemory.contributionsOf
    rw [List.filterMap_filter]
    congr
    funext fact
    cases hfact : filter.admits fact with
    | false => simp
    | true => simp [hwithin fact hfact]
  rw [hfilter facts, hfilter w.facts]
  exact h.perm.filterMap _

section Concur

variable {vars : List String} {token : Token} {bindings : Bindings}
  (hbindings : w.bindings vars token = .ok bindings)
  (hbindings' : ({ facts } : WorkingMemory).bindings vars token = .ok bindings)

include hbindings'

theorem concur_pattern {filter : FactFilter} {var : String} {alpha : Nat} {memory : AlphaMemory}
    (hmemory : w.alphas[alpha]? = some memory) (hsafe : filter.Safe)
    (hshares : ∀ fact ∈ w.facts, memory.filter.admits fact = filter.admits fact)
    (hwithin : ∀ fact, filter.admits fact = true → relevant fact = true) :
    Concur ((Node.pattern alpha).advance w vars token).outcome
      ((pattern filter var).satisfy facts vars token).outcome := by
  obtain ⟨out', hout', hmem⟩ := mem_satisfy_pattern hsafe facts token
  rw [outcome_satisfy_pattern hbindings', hout', Node.outcome_advance_pattern]
  apply Concur.ok
  intro child
  rw [hmem, Node.mem_extensions]
  simp only [admits_of_members h.alphas hmemory]
  constructor
  . rintro ⟨-, ⟨fact, hfact, rfl, hpass⟩, hnew, rfl⟩
    rw [hshares fact hfact] at hpass
    exact ⟨fact, (h.mem_iff (hwithin fact hpass)).mpr hfact, hpass, hnew, rfl⟩
  . rintro ⟨fact, hfact, hpass, hnew, rfl⟩
    rw [h.mem_iff (hwithin fact hpass)] at hfact
    rw [← hshares fact hfact] at hpass
    exact ⟨fact.id, ⟨fact, hfact, rfl, hpass⟩, hnew, rfl⟩

include hbindings

omit h in
theorem concur_join (across : JoinCondition) :
    Concur ((Node.join across).advance w vars token).outcome
      ((join across).satisfy facts vars token).outcome := by
  rw [Node.outcome_advance rfl, Node.verdict, hbindings, outcome_satisfy_join hbindings']
  exact .refl _

theorem concur_negation {memory : NegationMemory} (htracks : memory.Tracks w.facts)
    (hsafe : memory.filter.Safe)
    (hwithin : ∀ fact, memory.filter.admits fact = true → relevant fact = true) :
    Concur ((Node.negation memory).advance w vars token).outcome
      ((negation memory.filter memory.keys).satisfy facts vars token).outcome := by
  rw [Node.outcome_advance rfl, Node.verdict, hbindings, outcome_satisfy_negation hbindings' hsafe]
  simp only [Except.bind]
  cases hkey : bindingKey memory.keys bindings with
  | error fault => exact .error _ _
  | ok key =>
    have hany := h.any_eq (p := fun fact =>
      memory.filter.admits fact && Key.same (factKey memory.keys fact) key) fun fact hfact =>
        hwithin fact (Bool.and_eq_true_iff.mp hfact).1
    simp only [Except.map]
    rw [blocked_eq htracks (frozen_bindingKey hkey), hany]
    apply Concur.ok
    intro child
    cases w.facts.any _ <;> exact Iff.rfl

theorem concur_aggregate {memory : AggregateMemory} (htracks : memory.Tracks w.facts)
    (hexact : memory.Exact) (hsafe : memory.filter.Safe)
    (hwithin : ∀ fact, memory.filter.admits fact = true → relevant fact = true) :
    Concur ((Node.aggregate memory).advance w vars token).outcome
      ((aggregate memory.filter memory.keys memory.test).satisfy facts vars token).outcome := by
  rw [Node.outcome_advance rfl, Node.verdict, hbindings, outcome_satisfy_aggregate hbindings' hsafe]
  simp only [Except.bind]
  cases hkey : bindingKey memory.keys bindings with
  | error fault => exact .error _ _
  | ok key =>
    -- what the memory has collected is what the facts contribute, in another order
    have hperm := h.contributions_perm hwithin memory.keys memory.test key
    rw [← AggregateMemory.contributions_eq htracks] at hperm
    obtain ⟨answer, hanswer, hvalue⟩ :=
      AggregateMemory.passes_eq htracks hexact (frozen_bindingKey hkey) hperm
    simp only [Except.bind] at hvalue
    simp only [hanswer, hvalue]
    exact .refl _

end Concur

theorem concur_advance (vars : List String) {token : Token} {node : Node} {condition : Condition}
    (hserved : condition.ServedBy w node) (hwithin : condition.Within relevant)
    (hbinds : Binds w relevant token) :
    Concur (node.advance w vars token).outcome (condition.satisfy facts vars token).outcome := by
  obtain ⟨bindings, hbindings, -, -⟩ :=
    WorkingMemory.bindings_ok h.distinct (live_of_binds hbinds) vars
  have hbindings' := h.bindings_eq hbinds vars
  rw [hbindings] at hbindings'
  obtain ⟨himplements, htracks, hexact, hshares, hsafe⟩ := hserved
  cases himplements using Node.Implements.cases with
  | pattern hmemory hidentity =>
    exact concur_pattern h hbindings' hmemory (hsafe _ rfl)
      (hshares _ (List.mem_of_getElem? hmemory) hidentity) (hwithin _ rfl)
  | join across => exact concur_join hbindings hbindings' across
  | negation memory =>
    exact concur_negation h hbindings hbindings' htracks (hsafe _ rfl) (hwithin _ rfl)
  | aggregate memory =>
    exact concur_aggregate h hbindings hbindings' htracks hexact (hsafe _ rfl) (hwithin _ rfl)

theorem mem_gathered {vars : List String} {node : Node} {condition : Condition}
    (hserved : condition.ServedBy w node) (hwithin : condition.Within relevant)
    {tokens next : List Token} (hbinds : ∀ token ∈ tokens, Binds w relevant token)
    (hnext : (Logged.gather (condition.satisfy facts vars) tokens).outcome = .ok next)
    (child : Token) : child ∈ next ↔ ∃ token ∈ tokens, node.Yields w vars token child := by
  rw [Logged.mem_of_gather hnext]
  apply exists_congr
  intro token
  apply and_congr_right
  intro htoken
  exact ((concur_advance h vars hserved hwithin (hbinds token htoken)).mem_iff child).symm

theorem binds_child {token child : Token} {node : Node}
    {condition : Condition} (hserved : condition.ServedBy w node)
    (hwithin : condition.Within relevant) (hbinds : Binds w relevant token)
    (hchild : node.Child w token child) : Binds w relevant child := by
  obtain ⟨himplements, -, -, hshares, -⟩ := hserved
  cases himplements using Node.Implements.cases with
  | pattern hmemory hidentity =>
    obtain ⟨id, hmem, -, rfl⟩ := hchild
    intro other hother
    rw [List.mem_append, List.mem_singleton] at hother
    rcases hother with hother | rfl
    . exact hbinds other hother
    . obtain ⟨fact, hfact, hid, hadmits⟩ := (admits_of_members h.alphas hmemory other).mp hmem
      rw [hshares _ (List.mem_of_getElem? hmemory) hidentity fact hfact] at hadmits
      exact ⟨fact, hfact, hwithin _ rfl fact hadmits, hid⟩
  | join | negation | aggregate =>
    rw [(Node.child_iff rfl).mp hchild]
    exact hbinds

theorem satisfyAll_agrees {conditions : List Condition} {stages : List Stage}
    (hserved : List.Forall₂ (fun c s => ServedBy w c s.node) conditions stages)
    (hwithin : ∀ condition ∈ conditions, condition.Within relevant) {vars : List String}
    {parents tokens found : List Token} (hbinds : ∀ token ∈ parents, Binds w relevant token)
    (hground : Stage.AllGrounded w parents stages)
    (hsettled : Stage.AllSettled w vars (fun _ _ => False) parents stages)
    (htokens : ∀ token, token ∈ tokens ↔ token ∈ parents)
    (hok : (satisfyAll facts vars tokens conditions).outcome = .ok found) :
    ∀ token, token ∈ found ↔ token ∈ Stage.final parents stages := by
  induction hserved generalizing parents tokens with
  | nil =>
    rw [satisfyAll, Logged.outcome_pure, Except.ok.injEq] at hok
    rw [← hok]
    exact htokens
  | @cons condition stage conditions stages hfirst _ ih =>
    simp only [satisfyAll, Logged.outcome_bind, bind_eq_ok] at hok
    obtain ⟨next, hnext, hok⟩ := hok
    have hbinds' : ∀ token ∈ tokens, Binds w relevant token :=
      fun token htoken => hbinds token ((htokens token).mp htoken)
    have hmem : ∀ token, token ∈ next ↔ token ∈ stage.tokens := by
      intro child
      rw [mem_gathered h hfirst (hwithin condition (by simp)) hbinds' hnext,
        mem_settled_iff hground.1 hsettled.1]
      simp only [htokens]
    apply ih (fun other hother => hwithin other (by simp [hother])) _ hground.2 hsettled.2 hmem hok
    intro child hchild
    obtain ⟨token, htoken, hof⟩ := hground.1.closed child hchild
    exact binds_child h hfirst (hwithin condition (by simp)) (hbinds token htoken) hof

end Agrees
end Condition
end ForwardChaining
