import ForwardChaining.Proofs.Session.Limit
import ForwardChaining.Proofs.Session.Placement

/-!
This module contains that a rule without an action and without an explanation is a bystander. Its firings
take up cycles and entries of the trace, and leave everything else to the other rules: which of these fires
next, to which effect, and what comes out in the end.
-/

namespace ForwardChaining

namespace TraceEntry

/-- The entries of all rules but one, numbered anew. -/
def besides (name : String) (trace : List TraceEntry) : List TraceEntry :=
  (trace.filter (·.rule ≠ name)).mapIdx fun i entry => { entry with cycle := (i + 1 : Nat) }

theorem besides_append_self {name : String} {entry : TraceEntry} (h : entry.rule = name)
    (trace : List TraceEntry) : besides name (trace ++ [entry]) = besides name trace := by
  simp [besides, h]

theorem besides_append_other {name : String} {entry : TraceEntry} (h : entry.rule ≠ name)
    (trace : List TraceEntry) : besides name (trace ++ [entry]) = besides name trace ++
      [{ entry with cycle := ((besides name trace).length + 1 : Nat) }] := by
  simp [besides, h, List.mapIdx_append]

end TraceEntry

/-- The rule does nothing and explains nothing. -/
structure Rule.Silent (rule : Rule) : Prop where
  action : rule.action = []
  explanation : rule.explanation = none

/-- The rule is declared without actions and without an explanation. -/
structure RuleSpec.Silent (spec : RuleSpec) : Prop where
  actions : spec.actions = []
  script : spec.script = none
  explanation : spec.explanation = none

theorem RuleSpec.Silent.of_compileRule {spec : RuleSpec} (h : spec.Silent) {types : Declarations}
    {order : Int} {rule : Rule} (hcompile : compileRule types order spec = .ok rule) : rule.Silent := by
  obtain ⟨-, -, hexplanation⟩ := compileRule_fields hcompile
  refine ⟨?_, hexplanation.trans h.explanation⟩
  simp only [compileRule, Checked.seq_eq_ok, Checked.functorMap_eq_ok] at hcompile
  obtain ⟨-, action, ⟨conditions, -, rfl⟩, hactions, rfl⟩ := hcompile
  simp only [compileActions, h.actions, h.script, List.zipIdx_nil, List.map_nil, Checked.all,
    Checked.map, Checked.ok.injEq] at hactions
  exact hactions.symm

/-! ### Firings -/

namespace Session

variable {σ : Type}

theorem performDeferred_silent {rule : Rule} (hsilent : rule.Silent) {firing : Firing σ}
    (hdepth : firing.store.depth = 0) (hpending : firing.store.pending = []) :
    performDeferred firing (.ofRule rule) = (firing, none) := by
  have hperform : ({ firing with store := firing.store.enter } : Firing σ).perform (.ofRule rule)
      = ({ firing with store := firing.store.enter }, .ok ()) := by
    unfold Action.ofRule
    rw [hsilent.action, hsilent.explanation]
    rfl
  have hleave : firing.store.enter.leave = (firing.store, none) := by
    obtain ⟨⟨table, listeners, depth, pending, world⟩, _⟩ := firing
    simp only at hdepth hpending
    subst hdepth hpending
    rfl
  unfold performDeferred
  rw [hperform]
  dsimp only
  rw [hleave]
  rfl

theorem idle_performDeferred {rule : Rule} {firing : Firing σ} (hdepth : firing.store.depth = 0) :
    (performDeferred firing (.ofRule rule)).1.store.depth = 0
      ∧ (performDeferred firing (.ofRule rule)).1.store.pending = [] := by
  have hperform : (({ firing with store := firing.store.enter } : Firing σ).perform
      (.ofRule rule)).1.store.depth = 1 := by
    refine Firing.preserved_perform (P := fun store => store.depth = 1) ?_ rule (congrArg (· + 1) hdepth)
    intro store table' change? _ hstore
    cases change? with
    | none => exact hstore
    | some change =>
      simp only [Store.after, Store.emit]
      split <;> exact hstore
  unfold performDeferred Store.leave
  dsimp only
  rw [if_pos (Nat.le_of_eq hperform)]
  exact ⟨rfl, rfl⟩

theorem performDeferred_at {rule : Rule} (htimeless : rule.Timeless) (firing : Firing σ) (cycle : Value) :
    (performDeferred { firing with cycle } (.ofRule rule)).2 = (performDeferred firing (.ofRule rule)).2
      ∧ (performDeferred { firing with cycle } (.ofRule rule)).1.store
        = (performDeferred firing (.ofRule rule)).1.store
      ∧ (performDeferred { firing with cycle } (.ofRule rule)).1.serial
        = (performDeferred firing (.ofRule rule)).1.serial
      ∧ (performDeferred { firing with cycle } (.ofRule rule)).1.explanations
        = (performDeferred firing (.ofRule rule)).1.explanations := by
  have hparallel : Store.Parallel fun a b : Store σ => b = a ∧ True := .of_after fun _ _ => trivial
  have halike : Firing.Alike (fun a b : Store σ => b = a ∧ True) (fun _ => True) False
      { firing with store := firing.store.enter } { firing with store := firing.store.enter, cycle } :=
    ⟨⟨rfl, trivial⟩, rfl, rfl, rfl, False.elim, rfl, fun _ _ => trivial, rfl⟩
  obtain ⟨hresult, hlast⟩ := Action.agree_ofRule hparallel (fun _ => trivial) rule.says_true
    (.inr htimeless) _ _ halike
  unfold performDeferred
  dsimp only
  rw [hresult, hlast.store.1]
  exact ⟨rfl, rfl, hlast.serial, hlast.explanations⟩

end Session

namespace Naive

theorem idle_fire {state : Naive} (hdepth : state.store.depth = 0) (hpending : state.store.pending = [])
    (a : Activation) :
    (state.fire a).1.store.depth = 0 ∧ (state.fire a).1.store.pending = [] := by
  cases hfiring : state.firingOf a with
  | error fault =>
    rw [fire, hfiring]
    exact ⟨hdepth, hpending⟩
  | ok firing =>
    rw [fire_eq hfiring]
    rw [← store_of_firingOf hfiring] at hdepth
    exact Session.idle_performDeferred hdepth

theorem fire_at {a : Activation} (htimeless : a.rule.Timeless) {state other : Naive}
    (hstore : other.store = state.store) (hserial : other.serial = state.serial) :
    (other.fire a).1 = { other with store := (state.fire a).1.store, serial := (state.fire a).1.serial }
      ∧ (other.fire a).2 = (state.fire a).2.map fun entry => { entry with cycle := other.cycle } := by
  have hfirings : other.firingOf a
      = (state.firingOf a).map fun firing => { firing with cycle := .int other.cycle } := by
    unfold firingOf
    rw [hstore, hserial]
    dsimp only
    cases ({ facts := state.store.table.live } : WorkingMemory).bindings a.rule.vars a.token with
    | error fault => rfl
    | ok bindings =>
      simp only [bind, Except.bind]
      cases valuesOf state.store.table.live state.serial bindings [] a.rule.conditions <;> rfl
  cases hfiring : state.firingOf a with
  | error fault =>
    rw [hfiring] at hfirings
    unfold fire
    rw [hfirings, hfiring]
    cases other
    simp only at hstore hserial
    subst hstore hserial
    exact ⟨rfl, rfl⟩
  | ok firing =>
    rw [hfiring] at hfirings
    obtain ⟨hfault, hstore', hserial', hexplanations⟩ :=
      Session.performDeferred_at htimeless firing (.int other.cycle)
    rw [fire_eq hfiring, fire_eq hfirings]
    dsimp only
    rw [hstore', hserial', hfault]
    refine ⟨rfl, ?_⟩
    unfold Session.entryOf Firing.explanation
    rw [hexplanations]
    cases Fault.texts 0 (Session.performDeferred firing (.ofRule a.rule)).1.explanations <;> rfl

theorem firing_of_fire {state last : Naive} {a : Activation} {entry : TraceEntry}
    (h : state.fire a = (last, .ok entry)) : ∃ firing, state.firingOf a = .ok firing := by
  cases hfiring : state.firingOf a with
  | error fault =>
    rw [fire, hfiring] at h
    cases h
  | ok firing => exact ⟨firing, rfl⟩

theorem rule_of_fire {state last : Naive} {a : Activation} {entry : TraceEntry}
    (h : state.fire a = (last, .ok entry)) : entry.rule = a.rule.name := by
  obtain ⟨firing, hfiring⟩ := firing_of_fire h
  rw [fire_eq hfiring] at h
  obtain ⟨explanation, -, rfl⟩ := map_eq_ok.mp (congrArg Prod.snd h)
  rfl

theorem fire_silent {state last : Naive} {a : Activation} (hsilent : a.rule.Silent)
    (hdepth : state.store.depth = 0) (hpending : state.store.pending = []) {entry : TraceEntry}
    (h : state.fire a = (last, .ok entry)) : last = state := by
  obtain ⟨firing, hfiring⟩ := firing_of_fire h
  have hstore := store_of_firingOf hfiring
  have hserial : firing.serial = state.serial := by
    have hof := hfiring
    unfold firingOf at hof
    simp only [doBind_eq_ok] at hof
    obtain ⟨_, -, _, -, heq⟩ := hof
    rw [← Except.ok.inj heq]
    simp [Rule.reserved, hsilent.action]
  rw [← hstore] at hdepth hpending
  rw [fire_eq hfiring, Session.performDeferred_silent hsilent hdepth hpending, hstore, hserial] at h
  exact (congrArg Prod.fst h).symm

/-! ### The run with the rule and the run without -/

/--
The interpreter goes without a rule that the host has. It knows the same facts, but for what was retracted
in the last cycle, it has fired the same of the other rules, and its trace has their entries.
-/
structure Omits (extra : Rule) (host state : Naive) : Prop where
  hosted : Rule.Hosted host.rules [extra] state.rules
  store : state.store.beginCycle = host.store.beginCycle
  depth : host.store.depth = 0
  pending : host.store.pending = []
  fired : ∀ key, key.rule ≠ extra.name → (key ∈ host.fired ↔ key ∈ state.fired)
  serial : state.serial = host.serial
  cycle : state.cycle = state.trace.length
  trace : state.trace = TraceEntry.besides extra.name host.trace

section Omits

variable {extra : Rule} {host state : Naive} (h : Omits extra host state)

include h

theorem Omits.hosts : Hosts [extra] host state where
  hosted := h.hosted
  live := congrArg (·.table.live) h.store
  fired := by simpa using h.fired

theorem Omits.skip (hsilent : extra.Silent) {b : Activation} (hrule : b.rule = extra.among host.rules)
    {last : Naive} {entry : TraceEntry} (hfire : (host.begin b).fire b = (last, .ok entry)) :
    Omits extra { last with trace := last.trace ++ [entry] } state := by
  have hname : b.rule.name = extra.name := by
    rw [hrule]
    rfl
  have hquiet : b.rule.Silent := by
    rw [hrule]
    exact ⟨hsilent.action, hsilent.explanation⟩
  have hdepth : (host.begin b).store.depth = 0 := h.depth
  have hpending : (host.begin b).store.pending = [] := h.pending
  obtain rfl := fire_silent hquiet hdepth hpending hfire
  refine ⟨h.hosted, h.store.trans rfl, h.depth, h.pending, ?_, h.serial, h.cycle, ?_⟩
  . intro key hkey
    rw [← h.fired key hkey]
    refine List.mem_cons.trans (or_iff_right ?_)
    rintro rfl
    exact hkey hname
  . exact h.trace.trans (TraceEntry.besides_append_self ((rule_of_fire hfire).trans hname) host.trace).symm

theorem Omits.fire {a : Activation} (hrule : a.rule ∈ state.rules) (htimeless : a.rule.Timeless)
    {last : Naive} {entry : TraceEntry}
    (hfire : (host.begin (a.among host.rules)).fire (a.among host.rules) = (last, .ok entry)) :
    ∃ last' entry', (state.begin a).fire a = (last', .ok entry')
      ∧ Omits extra { last with trace := last.trace ++ [entry] }
        { last' with trace := last'.trace ++ [entry'] } := by
  have hfire' : (host.begin a).fire a = (last, .ok entry) := (fire_among _ _ a).symm.trans hfire
  have hname : entry.rule ≠ extra.name := by
    rw [rule_of_fire hfire']
    exact h.hosted.fresh (List.mem_singleton_self _) hrule
  have hstore : (state.begin a).store = (host.begin a).store := h.store
  have hserial : (state.begin a).serial = (host.begin a).serial := h.serial
  have hdepth : (host.begin a).store.depth = 0 := h.depth
  have hpending : (host.begin a).store.pending = [] := h.pending
  obtain ⟨hlast, hresult⟩ := fire_at htimeless hstore hserial
  obtain ⟨hdepth', hpending'⟩ := idle_fire hdepth hpending a
  rw [hfire'] at hlast hresult hdepth' hpending'
  simp only at hlast hresult hdepth' hpending'
  refine ⟨_, _, Prod.ext hlast hresult, ?_⟩
  rw [frame_fire hfire']
  refine ⟨h.hosted, rfl, hdepth', hpending', ?_, rfl, ?_, ?_⟩
  . intro key hkey
    exact (List.mem_cons.trans (or_congr_right (h.fired key hkey))).trans List.mem_cons.symm
  . change state.cycle + 1 = ((state.trace ++ [_]).length : Int)
    rw [h.cycle, List.length_append]
    rfl
  . change state.trace ++ [{ entry with cycle := state.cycle + 1 }]
      = TraceEntry.besides extra.name (host.trace ++ [entry])
    rw [TraceEntry.besides_append_other hname, ← h.trace, h.cycle]
    rfl

end Omits

theorem loop_omits {extra : Rule} (hsilent : extra.Silent) {left : Nat} {host : Naive}
    (hproceeds : Proceeds left host) {state : Naive} (h : Omits extra host state)
    (htimeless : ∀ rule ∈ state.rules, rule.Timeless) {last : Naive}
    (hloop : host.loop left = (last, .ok none)) {limit : Nat} (hlimit : left ≤ limit) :
    ∃ last', state.loop limit = (last', .ok none) ∧ Omits extra last last' := by
  -- the host may skip rounds, so the limit is not the same on both sides
  induction hproceeds generalizing state limit with
  | idle hfound =>
    obtain ⟨found', hfound', hinto, -⟩ := h.hosts.candidates hfound
    have hnone : found' = [] := List.eq_nil_iff_forall_not_mem.mpr fun a ha => by cases hinto a ha
    rw [loop_idle hfound] at hloop
    cases hloop
    exact ⟨state, loop_idle (hnone ▸ hfound') limit, h⟩
  | halted hfound =>
    rw [loop_halted hfound] at hloop
    cases hloop
  | escaped hfound hfire =>
    rw [loop_escaped hfound hfire] at hloop
    cases hloop
  | @fired left host next a as entry hfound hfire _ ih =>
    rw [loop_fired hfound hfire] at hloop
    rcases h.hosts.foremost hfound with ⟨_, hextra, hrule⟩ | ⟨b, bs, hfound', hrule, hforemost⟩
    . obtain rfl := List.mem_singleton.mp hextra
      exact ih (h.skip hsilent hrule hfire) htimeless hloop (Nat.le_of_succ_le hlimit)
    . rw [hforemost] at hfire
      obtain ⟨next', entry', hfire', hnext⟩ := h.fire hrule (htimeless _ hrule) hfire
      obtain ⟨limit, rfl⟩ := Nat.exists_eq_add_of_le' (Nat.one_le_of_lt hlimit)
      rw [loop_fired hfound' hfire']
      refine ih hnext ?_ hloop (Nat.le_of_succ_le_succ hlimit)
      rw [frame_fire hfire']
      exact htimeless

theorem run_converged {limit : Nat} {state last : Naive} (h : state.loop limit = (last, .ok none)) :
    state.run limit = (last, .ok (last.outcome none)) := by
  unfold run
  rw [h]
  rfl

theorem loop_of_run {limit : Nat} {state : Naive} {outcome : Outcome}
    (h : (state.run limit).2 = .ok outcome) (hconverged : outcome.state = .converged) :
    ∃ last, state.loop limit = (last, .ok none) ∧ outcome = last.outcome none := by
  unfold run at h
  cases hloop : state.loop limit with
  | mk last result =>
  rw [hloop, map_eq_ok] at h
  obtain ⟨halt, rfl, rfl⟩ := h
  cases halt with
  | none => exact ⟨last, rfl, rfl⟩
  | some halt => cases hconverged

end Naive

namespace Session

section Bystander

variable {spec : RuleSetSpec} {before after : List RuleSpec} {extra : RuleSpec}
  (hrules : spec.rules = before ++ extra :: after) (hsilent : extra.Silent) {ruleSet : RuleSet}
  (hcompile : spec.compile = .ok ruleSet)

include hrules hsilent hcompile

theorem hosted_silent : ∃ ruleSet' silent,
    ({ spec with rules := before ++ after } : RuleSetSpec).compile = .ok ruleSet'
      ∧ Rule.Hosted ruleSet.rules [silent] ruleSet'.rules ∧ silent.Silent ∧ silent.name = extra.name := by
  have hwellFormed := succeeds_compile.mp ⟨ruleSet, hcompile⟩
  have hsublist : (before ++ after).Sublist spec.rules := by
    rw [hrules]
    exact (List.sublist_cons_self _ _).append_left before
  have hperm : spec.rules.Perm ([extra] ++ (before ++ after)) := by
    rw [hrules]
    exact List.perm_middle
  obtain ⟨ruleSet', hcompile'⟩ := succeeds_compile.mpr
    (hwellFormed.of_subset hsublist.subset ((hsublist.map _).nodup hwellFormed.names))
  have hextra : extra ∈ spec.rules := by
    rw [hrules]
    simp
  obtain ⟨hname, -, -⟩ := compileRule_fields ((compiled_of_compile hcompile).2 extra hextra)
  exact ⟨ruleSet', _, hcompile', hosted_of_sublist hcompile hcompile' rfl [extra] hperm hsublist,
    hsilent.of_compileRule ((compiled_of_compile hcompile).2 extra hextra), hname⟩

end Bystander

end Session
end ForwardChaining
