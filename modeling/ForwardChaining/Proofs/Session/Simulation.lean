import ForwardChaining.Proofs.Network.Equivalence
import ForwardChaining.Proofs.Session.Naive

/-!
This module contains that a session with its network and the interpreter that matches from scratch go step
by step together: what the agenda holds is what matches and has not fired, the first of it is the same, and
so is what its firing does.
-/

namespace ForwardChaining

/-! ### What is left to fire -/

theorem Activation.Binds.unnumbered_eq {a b : Activation} {rule : Rule} {token : Token}
    {facts : List Fact} (ha : a.Binds rule token facts) (hb : b.Binds rule token facts) :
    a.unnumbered = b.unnumbered := by
  unfold Activation.unnumbered
  rw [Activation.mk.injEq]
  exact ⟨ha.rule.trans hb.rule.symm, ha.token.trans hb.token.symm, ha.recency.trans hb.recency.symm,
    ha.versions.trans hb.versions.symm, rfl⟩

namespace Network

section Candidates

variable {net : Network} (h : net.Faithful) {facts : List Fact}
  (hperm : facts.Perm net.working.facts)

include h hperm

theorem boundFacts_perm {token : Token} (hlive : net.working.Live token) :
    token.mapM ({ facts } : WorkingMemory).find = net.boundFacts token :=
  have hsame : ({ net with working := { facts } } : Network).boundFacts token = net.boundFacts token :=
    boundFacts_congr (WorkingMemory.find_perm h.sound.distinct hperm hlive)
  hsame

theorem activationsOf_ok {rule : Rule} (hrule : rule ∈ net.ruleSet.rules) :
    ∃ as, Naive.activationsOf facts rule = .ok as ∧ ∀ a, a ∈ as ↔ ∃ tokens token bound,
      net.matched rule.name = some (rule, tokens) ∧ token ∈ tokens
        ∧ net.boundFacts token = .ok bound ∧ a.Binds rule token bound ∧ a.serial = 0 := by
  obtain ⟨tokens, hmatched⟩ := h.sound.exists_matched hrule
  obtain ⟨memory, hmemory, rfl, rfl⟩ := exists_of_matched hmatched
  have hlive := live_of_matched h.sound hmatched
  obtain ⟨found, hfound, hiff⟩ := h.tokens_agree (List.mem_of_find?_eq_some hmemory) hperm
  have hof : ∀ token ∈ found, ∃ a, Naive.activationOf facts memory.rule token = .ok a := by
    intro token htoken
    obtain ⟨bound, hbound⟩ := boundFacts_ok h.sound.distinct (hlive token ((hiff token).mp htoken))
    refine ⟨_, doBind_eq_ok.mpr ⟨bound, ?_, rfl⟩⟩
    rw [boundFacts_perm h hperm (hlive token ((hiff token).mp htoken)), hbound]
  obtain ⟨as, has, hmem⟩ := mapM_ok hof
  refine ⟨as, doBind_eq_ok.mpr ⟨found, hfound, has⟩, ?_⟩
  intro a
  rw [hmem]
  constructor
  . rintro ⟨token, htoken, ha⟩
    obtain ⟨bound, hbound, heq⟩ := doBind_eq_ok.mp ha
    rw [hiff] at htoken
    rw [boundFacts_perm h hperm (hlive token htoken)] at hbound
    obtain rfl := Except.ok.inj heq
    exact ⟨_, token, bound, hmatched, htoken, hbound, ⟨rfl, rfl, rfl, rfl⟩, rfl⟩
  . rintro ⟨tokens, token, bound, hmatched', htoken, hbound,
      ⟨hrule, htoken', hversions, hrecency⟩, hserial⟩
    obtain ⟨-, rfl⟩ := Prod.mk.inj (Option.some.inj (hmatched.symm.trans hmatched'))
    refine ⟨token, (hiff token).mpr htoken, doBind_eq_ok.mpr ⟨bound, ?_, ?_⟩⟩
    . rw [boundFacts_perm h hperm (hlive token htoken), hbound]
    . cases a
      simp only at hrule htoken' hversions hrecency hserial
      subst hrule htoken' hversions hrecency hserial
      rfl

end Candidates

theorem Scheduled.due_eq {net : Network} (h : net.Scheduled fun _ _ => False) {name : String} {rule : Rule}
    {tokens : List Token} (hmatched : net.matched name = some (rule, tokens)) {token : Token}
    {facts : List Fact} (hfacts : net.boundFacts token = .ok facts) {a : Activation}
    (ha : net.agenda.find? (name, token) = some a) :
    net.Awaits rule token facts ∧ a.Binds rule token facts := by
  obtain ⟨rule', tokens', facts', hmatched', -, hawaits, hbinds⟩ := h.due name token a ha
  obtain ⟨rfl, -⟩ := Prod.mk.inj (Option.some.inj (hmatched.symm.trans hmatched'))
  obtain rfl := Except.ok.inj (hfacts.symm.trans hawaits.1)
  exact ⟨hawaits, hbinds⟩

section Candidates

variable {net : Network} (h : net.Faithful) (hscheduled : net.Scheduled fun _ _ => False)
  {state : Naive} (hrules : state.rules = net.ruleSet.rules) (hfired : state.fired = net.fired)
  (hlive : state.store.table.live.Perm net.working.facts)

include h hscheduled hrules hfired hlive

theorem candidates_ok : ∃ found, state.candidates = .ok found
    ∧ ∀ a, a ∈ found ↔ ∃ key b, net.agenda.find? key = some b ∧ a = b.unnumbered := by
  have hof : ∀ rule ∈ state.rules, ∃ as, Naive.activationsOf state.store.table.live rule = .ok as :=
    fun rule hrule => (activationsOf_ok h hlive (hrules ▸ hrule)).imp fun _ hok => hok.1
  obtain ⟨found, hfound, hmem⟩ := mapM_ok hof
  refine ⟨_, doBind_eq_ok.mpr ⟨found, hfound, rfl⟩, ?_⟩
  intro a
  rw [List.mem_filter, List.mem_flatten, hfired]
  simp only [hmem, Bool.not_eq_true', List.contains_eq_mem, decide_eq_false_iff_not]
  constructor
  . rintro ⟨⟨as, ⟨rule, hrule, has⟩, ha⟩, hnew⟩
    obtain ⟨as', has', hiff⟩ := activationsOf_ok h hlive (hrules ▸ hrule)
    rw [has, Except.ok.injEq] at has'
    rw [has', hiff] at ha
    obtain ⟨tokens, token, bound, hmatched, htoken, hbound, hbinds, hserial⟩ := ha
    have hawaits : net.Awaits rule token bound := by
      refine ⟨hbound, ?_⟩
      rw [← hbinds.versions, ← hbinds.rule, ← hbinds.token]
      exact hnew
    obtain ⟨b, hb⟩ := hscheduled.offered rule.name rule tokens hmatched token htoken id bound hawaits
    refine ⟨_, b, hb, ?_⟩
    rw [← hbinds.unnumbered_eq (hscheduled.due_eq hmatched hbound hb).2]
    cases a
    simp only at hserial
    rw [hserial]
    rfl
  . rintro ⟨⟨name, token⟩, b, hb, rfl⟩
    obtain ⟨rule, tokens, bound, hmatched, htoken, hawaits, hbinds⟩ := hscheduled.due name token b hb
    have hrule := h.sound.rule_of_matched hmatched
    obtain rfl := name_of_matched hmatched
    obtain ⟨as, has, hiff⟩ := activationsOf_ok h hlive hrule
    have hbinds' : b.unnumbered.Binds rule token bound :=
      ⟨hbinds.rule, hbinds.token, hbinds.versions, hbinds.recency⟩
    refine ⟨⟨as, ⟨rule, hrules ▸ hrule, has⟩,
      (hiff _).mpr ⟨tokens, token, bound, hmatched, htoken, hawaits.1, hbinds', rfl⟩⟩, ?_⟩
    rw [Activation.refraction, hbinds'.rule, hbinds'.token, hbinds'.versions]
    exact hawaits.2

end Candidates

/-! ### What fires next -/

theorem mem_of_boundFacts {net : Network} {token : Token} {facts : List Fact}
    (h : net.boundFacts token = .ok facts) : ∀ fact ∈ facts, fact ∈ net.working.facts := by
  rw [boundFacts_eq_ok] at h
  induction h with
  | nil => simp
  | cons hfind _ ih =>
    rw [List.forall_mem_cons]
    refine ⟨?_, ih⟩
    unfold WorkingMemory.find at hfind
    split at hfind
    . next fact hfact =>
      rw [← Except.ok.inj hfind]
      exact List.mem_of_find?_eq_some hfact
    . cases hfind

theorem Scheduled.stamps {net : Network} (h : net.Scheduled fun _ _ => False)
    (hstamps : ∀ fact ∈ net.working.facts, 0 < fact.recency) {key : ActivationKey} {a : Activation}
    (ha : net.agenda.find? key = some a) : ∀ x ∈ a.recency, 0 < x := by
  obtain ⟨rule, tokens, facts, -, -, hawaits, hbinds⟩ := h.due key.1 key.2 a ha
  rw [hbinds.recency]
  intro x hx
  rw [List.mem_mergeSort] at hx
  obtain ⟨fact, hfact, rfl⟩ := List.mem_map.mp hx
  exact hstamps fact (mem_of_boundFacts hawaits.1 fact hfact)

theorem rule_of_order {rules : List Rule} (h : rules.Pairwise fun a b => a.order < b.order)
    {a b : Rule} (ha : a ∈ rules) (hb : b ∈ rules) (horder : a.order = b.order) : a = b := by
  have hnodup : (rules.map (·.order)).Nodup := by
    rw [List.Nodup, List.pairwise_map]
    exact h.imp fun hlt => by omega
  exact List.inj_on_of_nodup_map hnodup ha hb horder

theorem Selected.foremost {net next : Network} (h : net.Sound)
    (horders : net.ruleSet.rules.Pairwise fun a b => a.order < b.order)
    (hscheduled : net.Scheduled fun _ _ => False)
    (hstamps : ∀ fact ∈ net.working.facts, 0 < fact.recency) {b : Activation}
    (hselected : net.Selected b next) {a : Activation} {as : List Activation}
    (has : ∀ c, c ∈ a :: as ↔ ∃ key d, net.agenda.find? key = some d ∧ c = d.unnumbered) :
    a.foremost as = b.unnumbered := by
  apply Activation.foremost_eq ((has _).mpr ⟨_, b, hselected.found, rfl⟩)
  . intro c hc
    obtain ⟨key, d, hd, rfl⟩ := (has c).mp hc
    have hcompare : b.sortKey.compare d.sortKey = b.compare d :=
      Activation.compare_sortKey (hscheduled.stamps hstamps hselected.found) (hscheduled.stamps hstamps hd)
    exact hcompare ▸ hselected.least key d hd
  . intro c hc heq
    obtain ⟨key, d, hd, rfl⟩ := (has c).mp hc
    obtain ⟨horder, htoken⟩ := Activation.place_of_compare heq
    have hrule : b.rule = d.rule := by
      obtain ⟨rule, tokens, facts, hmatched, -, -, hbinds⟩ := hscheduled.due key.1 key.2 d hd
      obtain ⟨tokens', facts', hmatched', -⟩ := hselected.due
      exact rule_of_order horders (h.rule_of_matched hmatched')
        (hbinds.rule ▸ h.rule_of_matched hmatched) horder
    have hkey : key = b.key := by
      rw [← hscheduled.orderly.own key d hd, Activation.key, Activation.key, hrule,
        show b.token = d.token from htoken]
    rw [hkey, hselected.found] at hd
    rw [Option.some.inj hd]

/-! ### What a firing sees -/

/-- The memories of aggregates have the values that their conditions have over the facts themselves. -/
theorem valuesOf_eq {w : WorkingMemory} {facts : List Fact}
    (h : Condition.Comparable w (fun _ => true) facts) {conditions : List Condition}
    {stages : List Stage}
    (hserved : List.Forall₂ (fun c s => Condition.ServedBy w c s.node) conditions stages) (n : Nat)
    (bindings : Bindings) (values : Fields) :
    Naive.valuesOf facts n bindings values conditions = valuesOf n bindings values stages := by
  induction hserved generalizing n values with
  | nil => rfl
  | @cons condition stage conditions stages hfirst _ ih =>
    obtain ⟨node, tokens⟩ := stage
    obtain ⟨himplements, htracks, hexact, -, hsafe⟩ := hfirst
    dsimp only at himplements htracks hexact
    cases himplements using Node.Implements.cases with
    | pattern | join | negation => exact ih n values
    | aggregate memory =>
      unfold Naive.valuesOf valuesOf
      cases hbind : memory.test.bind with
      | none => simp only [hbind, ih]
      | some name =>
        simp only [hbind]
        cases hkey : bindingKey memory.keys bindings with
        | error fault => rfl
        | ok key =>
          have hperm : (AggregateMemory.contributionsOf memory.filter memory.keys memory.test key
              facts).Perm (AggregateMemory.contributions key memory.members) := by
            rw [AggregateMemory.contributions_eq htracks]
            exact h.contributions_perm (fun _ _ => rfl) memory.keys memory.test key
          obtain ⟨x, hx, hx', -⟩ :=
            AggregateMemory.value_eq htracks hexact (frozen_bindingKey hkey) n hperm
          simp only [Condition.outcome_gather_contributions (hsafe memory.filter rfl),
            Condition.contributionsOf_candidates, hx, hx', bind, Except.bind, ih]

end Network
end ForwardChaining
