import ForwardChaining.Proofs.Network.Binding
import ForwardChaining.Proofs.Session.Conduct
import ForwardChaining.Proofs.Session.Limit

/-!
This module contains how often rules fire that insert nothing and do not fire again on changes. Each firing
uses up an arrangement of live facts for its rule, and no facts are added to those that are live when the run
starts, so there is an end to it, whatever the updates do to the matches.
-/

namespace ForwardChaining

/-! ### Arrangements -/

/-- So many of some identities in all orders, each at most once. -/
def arrangements (ids : List Int) : Nat → List Token
  | 0 => [[]]
  | k + 1 => ids.flatMap fun id => (arrangements (ids.erase id) k).map (id :: ·)

theorem length_arrangements (ids : List Int) (k : Nat) :
    (arrangements ids k).length = ids.length.descFactorial k := by
  induction k generalizing ids with
  | zero => rfl
  | succ k ih =>
    have hrest : ∀ id ∈ ids, ((arrangements (ids.erase id) k).map (id :: ·)).length
        = (ids.length - 1).descFactorial k := by
      intro id hid
      rw [List.length_map, ih, List.length_erase_of_mem hid]
    rw [arrangements, List.length_flatMap, List.map_congr_left hrest, List.map_const', List.sum_replicate,
      smul_eq_mul]
    cases ids with
    | nil => simp
    | cons id ids => exact (Nat.succ_descFactorial_succ _ _).symm

theorem mem_arrangements {ids : List Int} {token : Token} (hnodup : token.Nodup)
    (hsubset : token ⊆ ids) : token ∈ arrangements ids token.length := by
  induction token generalizing ids with
  | nil => exact List.mem_singleton.mpr rfl
  | cons id token ih =>
    rw [List.nodup_cons] at hnodup
    obtain ⟨hid, hrest⟩ := List.cons_subset.mp hsubset
    refine List.mem_flatMap.mpr ⟨id, hid, List.mem_map.mpr ⟨token, ih hnodup.2 ?_, rfl⟩⟩
    intro other hother
    rw [List.mem_erase_of_ne (by rintro rfl; exact hnodup.1 hother)]
    exact hrest hother

/-- The arrangements of some facts for the variables of each rule. -/
def firings (ids : List Int) (rules : List Rule) : List (String × Token) :=
  rules.flatMap fun rule => (arrangements ids rule.vars.length).map (rule.name, ·)

theorem length_firings (ids : List Int) (rules : List Rule) : (firings ids rules).length
    = (rules.map fun rule => ids.length.descFactorial rule.vars.length).sum := by
  simp only [firings, List.length_flatMap, List.length_map, length_arrangements]

/-! ### No new facts -/

/-- The part changes facts that are there, or explains something. -/
def ActionStep.Revises : ActionStep → Prop
  | .set .. | .append .. | .retract _ | .explain _ => True
  | .insert .. | .script _ => False

theorem FactTable.Moves.identities_subset {table : FactTable} {mutation : Mutation}
    {outcome : FactTable × Except Fault (Option Change)} (h : table.Moves mutation outcome)
    (hmutation : ∀ tag data, mutation ≠ .insert tag data) :
    outcome.1.live.map (·.id) ⊆ table.live.map (·.id) := by
  cases h with
  | refused | edge | begun => exact List.Subset.refl _
  | wasted | inserted => exact absurd rfl (hmutation _ _)
  | updated fact previous =>
    rw [map_id_replace]
    exact List.Subset.refl _
  | retracted ref fact => exact List.map_subset _ (List.filter_subset_self _)

namespace Store

variable {σ : Type} {ids : List Int} {depth : Nat} {store : Store σ}

/-- No fact is live but those of some identities, at some depth of deferred blocks. -/
structure Within (ids : List Int) (depth : Nat) (store : Store σ) : Prop where
  live : store.table.live.map (·.id) ⊆ ids
  depth : store.depth = depth

theorem depth_applyAll {mutations : List Mutation} (h : ∀ mutation ∈ mutations, ¬ mutation.IsEdge) :
    (store.applyAll mutations).depth = store.depth := by
  induction mutations generalizing store with
  | nil => rfl
  | cons mutation mutations ih =>
    rw [List.forall_mem_cons] at h
    exact (ih h.2).trans (depth_apply store h.1)

theorem Within.apply (h : store.Within ids depth) {mutation : Mutation} (hedge : ¬ mutation.IsEdge)
    (hmutation : ∀ tag data, mutation ≠ .insert tag data) :
    (store.apply mutation).1.Within ids depth := by
  constructor
  . rw [table_apply store hedge]
    exact List.Subset.trans ((store.table.moves_mutate mutation).identities_subset hmutation) h.live
  . rw [depth_apply store hedge, h.depth]

theorem Within.enter (h : store.Within ids depth) : store.enter.Within ids (depth + 1) :=
  ⟨h.live, congrArg (· + 1) h.depth⟩

theorem Within.leave (h : store.Within ids (depth + 1)) : store.leave.1.Within ids depth := by
  have hdepth := h.depth
  unfold Store.leave
  split
  . exact ⟨h.live, by dsimp only; omega⟩
  . exact ⟨h.live, by dsimp only; omega⟩

end Store

theorem Action.preserves_within {σ : Type} {ids : List Int} {depth : Nat} {rule : Rule}
    (h : ∀ p ∈ rule.action, p.Revises) :
    Preserves (fun firing : Firing σ => firing.store.Within ids depth) (ofRule rule) := by
  have hlasting : Lasting (fun mutation => ¬ mutation.IsEdge ∧ ∀ tag data, mutation ≠ .insert tag data)
      fun firing : Firing σ => firing.store.Within ids depth :=
    lasting_store fun _ _ hallowed hstore => hstore.apply hallowed.1 hallowed.2
  refine preserves_ofParts hlasting fun p hp => ?_
  have hrevises := h p hp
  cases p with
  | set var field operand => exact preserves_set hlasting (fun _ _ => ⟨id, nofun⟩) var field operand
  | append var field operand unique =>
    exact preserves_append hlasting (fun _ _ => ⟨id, nofun⟩) var field operand unique
  | retract var =>
    exact preserves_bind (preserves_retract hlasting (fun _ => ⟨id, nofun⟩) _) fun _ => preserves_pure _
  | explain template => exact preserves_bind (preserves_see _) fun _ => preserves_explain hlasting _
  | insert type operands => exact False.elim hrevises
  | script ss => exact False.elim hrevises

namespace Session

/-! ### Runs -/

section Within

variable {ids : List Int} {session : Session} (h : session.store.Within ids 0)

include h

theorem within_fire {a : Activation} (hrevises : ∀ p ∈ a.rule.action, p.Revises) :
    (session.fire a).1.store.Within ids 0 := by
  cases hfiring : session.firingOf a with
  | error fault =>
    rw [fire, hfiring]
    exact h
  | ok firing =>
    rw [← store_of_firingOf hfiring] at h
    have hperform : ((({ firing with store := firing.store.enter } : Firing).perform
        (Action.ofRule a.rule)).1.store).Within ids 1 :=
      (Action.preserves_within hrevises).invariant _ h.enter
    rw [fire_eq hfiring]
    exact ⟨hperform.leave.live, hperform.leave.depth⟩

theorem within_select {next : Session} {a : Activation} (hselect : session.select = (next, some a)) :
    next.store.Within ids 0 := by
  obtain ⟨agenda, -, rfl⟩ := select_eq_some hselect
  exact ⟨h.live, h.depth⟩

end Within

/-- What a loop does that may fire something and has something to fire. -/
inductive Round (session : Session) : Prop where
  | stopped (last : Session) (fault : Fault)
      (hloop : ∀ left, session.loop (left + 1) = (last, .error fault))
  | late (hbudget : session.timeBudget ≠ none)
      (hloop : ∀ left, session.loop (left + 1) = (session, .ok (some .timeBudget)))
  | fired (next last : Session) (a : Activation) (entry : TraceEntry)
      (hselect : session.select = (next, some a))
      (hfire : next.beginCycle.fire a = (last, .ok entry))
      (hloop : ∀ left, session.loop (left + 1) = loop left { last with trace := last.trace ++ [entry] })

theorem round_of_size {todo : String → Token → Prop} {session : Session}
    (h : session.network.Scheduled todo) (hsize : session.network.agenda.size ≠ 0) : Round session := by
  have hloop (left : Nat) := Session.loop.eq_def (left + 1) session
  simp only [hsize, if_false] at hloop
  cases hexhausted : session.exhausted with
  | error fault =>
    rw [hexhausted] at hloop
    exact .stopped session fault hloop
  | ok exhausted =>
  rw [hexhausted] at hloop
  cases exhausted with
  | true =>
    refine .late ?_ hloop
    intro hbudget
    rw [Session.exhausted, hbudget] at hexhausted
    cases hexhausted
  | false =>
  cases hselect : session.select with
  | mk next selected =>
  cases selected with
  | none => exact absurd (size_of_select h hselect) hsize
  | some a =>
  rw [hselect] at hloop
  cases hfire : next.beginCycle.fire a with
  | mk last result =>
  simp only [hfire] at hloop
  cases result with
  | error fault => exact .stopped last fault hloop
  | ok entry => exact .fired next last a entry hselect hfire hloop

/-- Why a loop ends that has fired so many activations: it stops early only when its time is up. -/
inductive Halted (budget : Option Value) (last : Session) (left fired : Nat) : Option Halt → Prop where
  | converged (hstate : last.state = .converged) : Halted budget last left fired none
  | exhausted (hfired : fired = left) (hsize : last.network.agenda.size ≠ 0) :
      Halted budget last left fired (some .cycleLimit)
  | late (hbudget : budget ≠ none) : Halted budget last left fired (some .timeBudget)

/-- Each of the activations that a loop has selected has used up a cycle and left an entry. -/
structure Ended (session last : Session) (left : Nat) (more : List Activation) (halt : Option Halt) :
    Prop where
  cycle : last.cycle = session.cycle + more.length
  trace : last.trace.length = session.trace.length + more.length
  halted : Halted session.timeBudget last left more.length halt

theorem Ended.step {session next last : Session} {left : Nat} {more : List Activation}
    {halt : Option Halt} (h : Ended next last left more halt) {a : Activation}
    (hcycle : next.cycle = session.cycle + 1) (htrace : next.trace.length = session.trace.length + 1)
    (hbudget : next.timeBudget = session.timeBudget) :
    Ended session last (left + 1) (more ++ [a]) halt := by
  refine ⟨?_, ?_, ?_⟩
  . rw [h.cycle, hcycle, List.length_append, List.length_singleton]
    omega
  . rw [h.trace, htrace, List.length_append, List.length_singleton]
    omega
  . rw [List.length_append]
    cases h.halted with
    | converged hstate => exact .converged hstate
    | exhausted hfired hsize => exact .exhausted (congrArg (· + 1) hfired) hsize
    | late hlate => exact .late (hbudget ▸ hlate)

/--
No fact is live but those of some identities, and each of the rules that have been selected was selected for
an arrangement of them.
-/
structure Confined (ruleSet : RuleSet) (ids : List Int) (fired : List Activation) (session : Session) :
    Prop where
  history : History ruleSet fired session
  within : session.store.Within ids 0
  tokens : ∀ a ∈ fired, a.token ∈ arrangements ids a.rule.vars.length

section Confined

variable {ruleSet : RuleSet} (hwellFormed : ruleSet.WellFormed)
  {ids : List Int} {fired : List Activation} {session : Session}
  (h : session.Confined ruleSet ids fired)

include hwellFormed h

theorem Confined.select {next : Session} {a : Activation} (hselect : session.select = (next, some a)) :
    next.Confined ruleSet ids (a :: fired) := by
  have hattended := (h.history.consistent hwellFormed).attended
  have hkept := hattended.known (hattended.idle h.within.depth)
  obtain ⟨hselected, -⟩ := attended_select hattended hselect
  obtain ⟨tokens, facts, hmatched, htoken, -⟩ := hselected.due
  obtain ⟨memory, hmemory, hrule, rfl⟩ := Network.exists_of_matched hmatched
  have hcovers := Network.covers_complete hkept.sound hmemory htoken
  have hlength : a.token.length = a.rule.vars.length := by
    rw [← hcovers.length_eq, hrule, ← List.length_map, Rule.map_bound]
  refine ⟨h.history.selected hselect, within_select h.within hselect,
    List.forall_mem_cons.mpr ⟨?_, h.tokens⟩⟩
  rw [← hlength]
  apply mem_arrangements (Network.nodup_complete hkept.sound hmemory htoken)
  intro id hid
  obtain ⟨fact, hfact, rfl⟩ := Network.live_of_matched hkept.sound hmatched _ htoken id hid
  exact h.within.live (List.mem_map.mpr ⟨fact, hkept.known hfact, rfl⟩)

section Length

variable (hstays : ∀ rule ∈ ruleSet.rules, rule.refireOnChange = false)

include hstays

/-- Nothing is selected twice, so that the arrangements are used up at some time. -/
theorem Confined.length_le : fired.length
    ≤ (ruleSet.rules.map fun rule => ids.length.descFactorial rule.vars.length).sum := by
  have hconsistent := h.history.consistent hwellFormed
  have hkeys : (fired.map Activation.key).Nodup := by
    apply nodup_of_refraction hconsistent.once
    intro a ha b hb heq
    obtain ⟨hname, htoken⟩ := Prod.mk.inj heq
    simp only [Activation.refraction, Network.refractionKey, hstays _ (hconsistent.rules a ha),
      hstays _ (hconsistent.rules b hb), Bool.false_eq_true, if_false, hname, htoken]
  have hsubset : fired.map Activation.key ⊆ firings ids ruleSet.rules := by
    intro key hkey
    obtain ⟨a, ha, rfl⟩ := List.mem_map.mp hkey
    exact List.mem_flatMap.mpr ⟨a.rule, hconsistent.rules a ha,
      List.mem_map.mpr ⟨a.token, h.tokens a ha, rfl⟩⟩
  rw [← length_firings, ← List.length_map (f := Activation.key)]
  exact (hkeys.subperm hsubset).length_le

end Length

section Loop

variable (hrevises : ∀ rule ∈ ruleSet.rules, ∀ p ∈ rule.action, p.Revises)

include hrevises

theorem Confined.fire {next last : Session} {a : Activation} {entry : TraceEntry}
    (hselect : session.select = (next, some a)) (hfire : next.beginCycle.fire a = (last, .ok entry)) :
    ({ last with trace := last.trace ++ [entry] } : Session).Confined ruleSet ids (a :: fired) := by
  have hselected := h.select hwellFormed hselect
  have hrules := (hselected.history.consistent hwellFormed).rules
  have hbegun : next.beginCycle.store.Within ids 0 :=
    ⟨hselected.within.live, hselected.within.depth⟩
  have hlast := within_fire hbegun (hrevises a.rule (hrules a List.mem_cons_self))
  rw [hfire] at hlast
  exact ⟨h.history.fired hselect hfire, hlast, hselected.tokens⟩

theorem Confined.loop {left : Nat} {last : Session} {halt : Option Halt}
    (hloop : session.loop left = (last, .ok halt)) :
    ∃ more, last.Confined ruleSet ids (more ++ fired) ∧ Ended session last left more halt := by
  induction left generalizing fired session with
  | zero =>
    by_cases hsize : session.network.agenda.size = 0
    . rw [loop_idle hsize] at hloop
      cases hloop
      exact ⟨[], ⟨h.history.noted _ _ _ _, h.within, h.tokens⟩, by simp, by simp, .converged rfl⟩
    . rw [loop_halted hsize] at hloop
      cases hloop
      exact ⟨[], h, by simp, by simp, .exhausted rfl hsize⟩
  | succ left ih =>
    by_cases hsize : session.network.agenda.size = 0
    . rw [loop_idle hsize] at hloop
      cases hloop
      exact ⟨[], ⟨h.history.noted _ _ _ _, h.within, h.tokens⟩, by simp, by simp, .converged rfl⟩
    obtain ⟨seen, hkept⟩ := (h.history.consistent hwellFormed).kept
    -- Only a round that fires goes on.
    cases round_of_size hkept.scheduled hsize with
    | stopped stopped fault hround =>
      rw [hround] at hloop
      cases hloop
    | late hbudget hround =>
      rw [hround] at hloop
      cases hloop
      exact ⟨[], h, by simp, by simp, .late hbudget⟩
    | fired next after a entry hselect hfire hround =>
      rw [hround] at hloop
      obtain ⟨more, hmore, hended⟩ := ih (h.fire hwellFormed hrevises hselect hfire) hloop
      have hfired := (h.history.consistent hwellFormed).fire hselect
      rw [hfire] at hfired
      have hafter : after = { next.beginCycle with store := after.store, serial := after.serial } :=
        hfired.frame
      have hnext := frame_select hselect
      refine ⟨more ++ [a], by rwa [List.append_assoc], hended.step ?_ ?_ ?_⟩
      . rw [hafter, hnext]
        rfl
      . rw [hafter, hnext]
        exact List.length_append
      . rw [hafter, hnext]
        rfl

end Loop

end Confined

theorem cycles_finish (session : Session) (halt : Option Halt) :
    (session.finish halt).2.cycles = session.cycle := by
  cases halt <;> rfl

theorem depth_createFrom {options : SessionOptions} {journal : List LogEntry} {ruleSet : RuleSet}
    {facts : List InitialFact} {session : Session}
    (h : createFrom options journal ruleSet facts = .ok session) : session.store.depth = 0 := by
  obtain ⟨empty, mutations, entries, hempty, hinserts, rfl⟩ := createFrom_eq_ok h
  have hdepth : empty.store.depth = 0 := by
    rw [(ofRuleSet_eq_ok hempty).2]
  have hsame : (empty.store.applyAll mutations).depth = empty.store.depth := by
    apply Store.depth_applyAll
    intro mutation hmutation
    obtain ⟨tag, data, rfl⟩ := hinserts mutation hmutation
    exact fun hedge => hedge
  exact hsame.trans hdepth

theorem cycleLimit_createFrom {options : SessionOptions} {journal : List LogEntry}
    {ruleSet : RuleSet} {facts : List InitialFact} {session : Session}
    (h : createFrom options journal ruleSet facts = .ok session) {limit : Value}
    (hlimit : options.cycleLimit = some limit) : session.cycleLimit = limit := by
  obtain ⟨empty, mutations, entries, hempty, -, rfl⟩ := createFrom_eq_ok h
  exact ofRuleSet_cycleLimit hempty hlimit

section Bound

variable {spec : RuleSetSpec} {ruleSet : RuleSet} (hcompile : spec.compile = .ok ruleSet)
  (hstays : ∀ rule ∈ ruleSet.rules, rule.refireOnChange = false)
  (hrevises : ∀ rule ∈ ruleSet.rules, ∀ p ∈ rule.action, p.Revises)
  {options : SessionOptions} {journal : List LogEntry} {facts : List InitialFact} {session : Session}
  (hcreate : createFrom options journal ruleSet facts = .ok session)

include hcompile hstays hrevises hcreate

/--
If no rule fires again on changes and none inserts facts, a run has no more cycles than there are
arrangements of the facts that are live when it starts, for the patterns of each rule. So no limit that is
not smaller than that halts it, and without a time budget it converges.
-/
theorem run_within_arrangements {result : RunResult} (hrun : session.run.2 = .ok result) {bound : Nat}
    (hbound : bound = (ruleSet.rules.map fun rule =>
      session.store.table.live.length.descFactorial rule.vars.length).sum) :
    result.cycles ≤ bound ∧ result.trace.length ≤ bound
      ∧ ∀ limit : Nat, session.cycleLimit = .int limit → bound ≤ limit →
        result.haltedBy ≠ some Halt.cycleLimit.name
          ∧ (session.timeBudget = none → result.haltedBy = none ∧ result.state = .converged) := by
  have hwellFormed := wellFormed_of_compile hcompile
  obtain ⟨htrace, hcycle, hfirst⟩ := createFrom_fresh hcreate
  obtain ⟨last, halt, hloop, rfl⟩ := (run_eq_ok session hfirst).mp hrun
  have hconfined : session.Confined ruleSet (session.store.table.live.map (·.id)) [] :=
    ⟨history_createFrom hcreate, ⟨List.Subset.refl _, depth_createFrom hcreate⟩, by simp⟩
  obtain ⟨more, hlast, hended⟩ := hconfined.loop hwellFormed hrevises hloop
  have hlength := hlast.length_le hwellFormed hstays
  rw [List.append_nil] at hlast hlength
  rw [List.length_map, ← hbound] at hlength
  have hcycles := hended.cycle
  have hentries := hended.trace
  rw [hcycle] at hcycles
  rw [htrace, List.length_nil] at hentries
  refine ⟨by rw [cycles_finish]; omega, by rw [trace_finish]; omega, ?_⟩
  intro limit hlimit hle
  rw [allowance_of_limit session hcycle hlimit] at hended
  cases hended.halted with
  | converged hstate => exact ⟨nofun, fun _ => ⟨rfl, hstate⟩⟩
  | late hbudget =>
    have hlate : some Halt.timeBudget.name ≠ some Halt.cycleLimit.name := by decide
    exact ⟨hlate, fun hnone => absurd hnone hbudget⟩
  | exhausted hfired hsize =>
    -- what is left to fire would be one arrangement more
    exfalso
    cases hselect : last.select with
    | mk next selected =>
    cases selected with
    | none =>
      obtain ⟨seen, hkept⟩ := (hlast.history.consistent hwellFormed).kept
      exact hsize (size_of_select hkept.scheduled hselect)
    | some a =>
      have hnext := (hlast.select hwellFormed hselect).length_le hwellFormed hstays
      rw [List.length_map, ← hbound, List.length_cons] at hnext
      omega

end Bound

/-- Open orders are closed, and any order is opened again. -/
def flippingSpec : RuleSetSpec where
  factTypes := [{ name := "order" }]
  rules := [
    { name := "close"
      conditions := [.pattern {
        var := "o", factType := "order", tests := [{ field := "open", value := .bool true }] }]
      actions := [{
        kind := .set, target := some "o", field := some "open", value := .literal (.bool false) }] },
    { name := "reopen"
      conditions := [.pattern { var := "o", factType := "order" }]
      actions := [{
        kind := .set, target := some "o", field := some "open", value := .literal (.bool true) }] }]

def flippingRules : List Rule := [
  { name := "close"
    conditions := [.pattern
      { type := "order", tests := [{ field := "open", op := .eq, value := .bool true }] } "o"]
    action := [.set "o" "open" (.literal (.bool false))] },
  { name := "reopen"
    conditions := [.pattern { type := "order" } "o"]
    action := [.set "o" "open" (.literal (.bool true))]
    order := 1 }]

def flippingRuleSet (digest : String) : RuleSet where
  factTypes := [{ name := "order" }]
  rules := flippingRules
  index := .build flippingRules
  digest

theorem compile_flippingSpec : flippingSpec.compile = .ok (flippingRuleSet flippingSpec.digest) :=
  compile_eq_ok.mpr ⟨_, _, rfl, rfl, rfl⟩

/-- The order is closed and opened once, and a limit of two is just enough for that. -/
theorem run_within_arrangements_flipping : ∃ session result,
    createFrom { id := "s", cycleLimit := some (.int 2) } [] (flippingRuleSet flippingSpec.digest)
      [.checked { type := "order", data := [("open", .bool true)] }] = .ok session
      ∧ session.run.2 = .ok result ∧ result.cycles = 2
      ∧ result.haltedBy = none ∧ result.state = .converged := by
  have hfires : ((createFrom { id := "s", cycleLimit := some (.int 2) } []
      (flippingRuleSet flippingSpec.digest)
      [.checked { type := "order", data := [("open", .bool true)] }]).toOption.map
        fun (session : Session) => (session.store.table.live.length, session.timeBudget.isNone,
          session.run.2.toOption.map fun (result : RunResult) => result.cycles))
        = some (1, true, some 2) := by
    decide +kernel
  obtain ⟨session, hcreate, hseen⟩ := exists_ok_of_toOption hfires
  simp only [Prod.mk.injEq] at hseen
  obtain ⟨hlive, hbudget, hcounts⟩ := hseen
  obtain ⟨result, hrun, hcycles⟩ := exists_ok_of_toOption hcounts
  have hstays : ∀ rule ∈ flippingRules, rule.refireOnChange = false := by
    simp [flippingRules]
  have hrevises : ∀ rule ∈ flippingRules, ∀ p ∈ rule.action, p.Revises := by
    simp [flippingRules, ActionStep.Revises]
  have hbound : 2 = (flippingRules.map fun rule =>
      session.store.table.live.length.descFactorial rule.vars.length).sum := by
    rw [hlive]
    rfl
  obtain ⟨-, -, hhalted⟩ :=
    run_within_arrangements compile_flippingSpec hstays hrevises hcreate hrun hbound
  obtain ⟨-, hconverges⟩ := hhalted 2 (cycleLimit_createFrom hcreate rfl) (Nat.le_refl 2)
  exact ⟨session, result, hcreate, hrun, hcycles,
    hconverges (Option.isNone_iff_eq_none.mp hbudget)⟩

end Session
end ForwardChaining
