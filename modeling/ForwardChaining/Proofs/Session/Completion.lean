import ForwardChaining.Proofs.Session.Refraction

/-!
This module contains that a run comes to its end. Whatever its actions do, it goes on until nothing is left
to fire or its allowance is used up, and each firing leaves an entry in the trace; only a rule that reports
what cannot be computed or joined stops it.
-/

namespace ForwardChaining

/-- The value is a text. -/
def Value.IsText (x : Value) : Prop :=
  ∃ s, x = .text s

theorem Fault.texts_text (i : Nat) (ss : List String) : Fault.texts i (ss.map .text) = .ok ss := by
  induction ss generalizing i with
  | nil => rfl
  | cons s ss ih =>
    rw [List.map_cons, Fault.texts, ih]
    rfl

theorem Fault.texts_ok (i : Nat) {xs : List Value} (h : ∀ x ∈ xs, x.IsText) :
    ∃ ss, Fault.texts i xs = .ok ss := by
  obtain ⟨ss, rfl⟩ : xs ∈ Set.range (List.map Value.text) := by
    rw [Set.range_list_map]
    exact fun x hx => (h x hx).imp fun _ => Eq.symm
  exact ⟨ss, texts_text i ss⟩

/--
What the rule reports of a firing can always be reported: no aggregate that it names is a sum, and the
reasons that are written in its action are texts.
-/
structure Rule.Reportable (rule : Rule) : Prop where
  values : ∀ filter keys test, .aggregate filter keys test ∈ rule.conditions → test.bind.isSome →
    test.function ≠ .sum
  reasons : rule.Says Value.IsText

namespace Network

/-- The values of the aggregates that a rule gives names to can be computed. -/
def HasValues (net : Network) (name : String) : Prop :=
  ∀ memory, net.memory? name = some memory → ∀ stage ∈ memory.stages, ∀ aggregate : AggregateMemory,
    stage.node = .aggregate aggregate → aggregate.test.bind.isSome →
      ∀ key : Key, key.Frozen → ∀ n, ∃ x, aggregate.value n key = .ok x

theorem hasValues_of_reportable {net : Network} (h : net.Sound) {name : String} {memory : RuleMemory}
    (hmemory : net.memory? name = some memory) (hrule : memory.rule.Reportable) : net.HasValues name := by
  intro memory' hmemory' stage hstage aggregate hnode hbind key hkey n
  obtain rfl := Option.some.inj (hmemory.symm.trans hmemory')
  obtain ⟨i, hi⟩ := List.mem_iff_getElem?.mp hstage
  obtain ⟨-, condition, hcondition, himplements, -⟩ := h.exists_condition hmemory hi
  have htracks := h.nodes name memory hmemory stage hstage
  rw [hnode] at himplements htracks
  cases condition with
  | aggregate filter keys test =>
    obtain ⟨-, -, rfl⟩ := himplements
    exact AggregateMemory.value_ok htracks
      (hrule.values filter keys _ (List.mem_of_getElem? hcondition) hbind) hkey n
  | pattern | join | negation => exact False.elim himplements

theorem hasValues_of_exact {net : Network} (h : net.Sound) {name : String} (hexact : net.Exact name) :
    net.HasValues name := by
  intro memory hmemory stage hstage aggregate hnode hbind key hkey n
  have htracks := h.nodes name memory hmemory stage hstage
  have hstages := hexact memory hmemory stage hstage
  rw [hnode] at htracks hstages
  obtain ⟨x, hx, -⟩ := AggregateMemory.value_eq htracks hstages hkey n (.refl _)
  exact ⟨x, hx⟩

theorem valuesOf_ok {alphas : List AlphaMemory} {conditions : List Condition} {stages : List Stage}
    (himplements : List.Forall₂ (fun c s => s.node.Implements alphas c) conditions stages)
    (hvalues : ∀ stage ∈ stages, ∀ aggregate : AggregateMemory, stage.node = .aggregate aggregate →
      aggregate.test.bind.isSome → ∀ key : Key, key.Frozen → ∀ n, ∃ x, aggregate.value n key = .ok x)
    {bindings : Bindings}
    (huses : ∀ condition ∈ conditions, ∀ var ∈ condition.uses, bindings.Binds var) (n : Nat)
    (values : Fields) : ∃ found, valuesOf n bindings values stages = .ok found := by
  induction himplements generalizing n values with
  | nil => exact ⟨values, rfl⟩
  | @cons condition stage conditions stages hfirst _ ih =>
    rw [List.forall_mem_cons] at huses hvalues
    have hrest := ih hvalues.2 huses.2
    unfold valuesOf
    split
    . next memory hnode =>
      rw [hnode] at hfirst
      cases condition with
      | aggregate filter keys test =>
        obtain ⟨-, hkeys, -⟩ := hfirst
        split
        . next name hbind =>
          have hbound : ∀ k ∈ memory.keys, bindings.Binds k.ref.var := fun k hk =>
            huses.1 k.ref.var (List.mem_map.mpr ⟨k, hkeys ▸ hk, rfl⟩)
          obtain ⟨key, hkey⟩ := bindingKey_ok hbound
          obtain ⟨x, hx⟩ := hvalues.1 memory hnode (by rw [hbind]; rfl) key (frozen_bindingKey hkey) n
          obtain ⟨found, hfound⟩ := hrest (n + 1) (values.set name x)
          exact ⟨found, doBind_eq_ok.mpr ⟨key, hkey, doBind_eq_ok.mpr ⟨x, hx, hfound⟩⟩⟩
        . exact hrest n values
      | pattern | join | negation => exact False.elim hfirst
    . exact hrest n values

section Matched

variable {net : Network} (h : net.Sound) {name : String} {rule : Rule} {tokens : List Token}
  (hmatched : net.matched name = some (rule, tokens)) {token : Token} (htoken : token ∈ tokens)

include h hmatched htoken

theorem bindings_of_matched : ∃ bindings, net.working.bindings rule.vars token = .ok bindings
    ∧ bindings.map (·.1) = rule.vars := by
  obtain ⟨memory, hmemory, rfl, rfl⟩ := exists_of_matched hmatched
  have himplements := h.implements name memory hmemory
  rw [Stage.complete_eq_final] at htoken
  obtain ⟨hlive, hlength⟩ := Condition.fits_final h.alphas himplements
    (Condition.fits_nil _) (h.grounded name memory hmemory) token htoken
  obtain ⟨bindings, hbindings, hvars, -⟩ :=
    WorkingMemory.bindings_ok h.distinct hlive memory.rule.vars
  refine ⟨bindings, hbindings, ?_⟩
  rw [hvars, hlength, List.nil_append]
  exact List.take_length

theorem aggregateValues_ok (hscope : Condition.Scoped [] rule.conditions) (hvalues : net.HasValues name)
    {a : Activation} (harule : a.rule = rule) (hatoken : a.token = token) (n : Nat) :
    ∃ values, net.aggregateValues a n = .ok values := by
  obtain ⟨bindings, hbindings, hvars⟩ := bindings_of_matched h hmatched htoken
  obtain ⟨memory, hmemory, rfl, -⟩ := exists_of_matched hmatched
  have huses : ∀ condition ∈ memory.rule.conditions, ∀ var ∈ condition.uses, bindings.Binds var := by
    intro condition hcondition var hvar
    obtain ⟨i, hi⟩ := List.mem_iff_getElem?.mp hcondition
    rw [Bindings.Binds, hvars]
    have hmem := Condition.uses_of_scoped hscope hi var hvar
    rw [List.nil_append] at hmem
    exact ((List.take_sublist i _).filterMap _).subset hmem
  obtain ⟨values, hfound⟩ :=
    valuesOf_ok (h.implements name memory hmemory) (hvalues memory hmemory) huses n []
  refine ⟨values, doBind_eq_ok.mpr ⟨bindings, ?_, ?_⟩⟩
  . rw [Network.bindings, harule, hatoken, hbindings]
  . rw [harule, name_of_memory? hmemory, hmemory]
    exact hfound

end Matched

end Network

namespace Session

theorem explanations_of_firingOf {session : Session} {a : Activation} {firing : Firing}
    (h : session.firingOf a = .ok firing) : firing.explanations = [] := by
  unfold firingOf at h
  simp only [doBind_eq_ok] at h
  obtain ⟨bindings, -, values, -, heq⟩ := h
  rw [← Except.ok.inj heq]

theorem entryOf_ok {firing : Firing} (h : ∀ reason ∈ firing.explanations, reason.IsText)
    (cycle : Int) (a : Activation) (fault : Option Fault) :
    ∃ entry, entryOf firing cycle a fault = .ok entry := by
  obtain ⟨texts, htexts⟩ := Fault.texts_ok 0 h
  exact ⟨_, by rw [entryOf, Firing.explanation, htexts]; rfl⟩

theorem firingOf_ok {session : Session} (h : session.network.Sound) {a : Activation} {tokens : List Token}
    (hmatched : session.network.matched a.rule.name = some (a.rule, tokens)) (htoken : a.token ∈ tokens)
    (hscope : Condition.Scoped [] a.rule.conditions) (hvalues : session.network.HasValues a.rule.name) :
    ∃ firing, session.firingOf a = .ok firing := by
  obtain ⟨bindings, hbindings, -⟩ := Network.bindings_of_matched h hmatched htoken
  obtain ⟨values, hfound⟩ :=
    Network.aggregateValues_ok h hmatched htoken hscope hvalues rfl rfl session.serial
  exact ⟨_, doBind_eq_ok.mpr ⟨bindings, hbindings, doBind_eq_ok.mpr ⟨values, hfound, rfl⟩⟩⟩

theorem fire_ok {session : Session} (h : session.network.Sound) {a : Activation} {tokens : List Token}
    (hmatched : session.network.matched a.rule.name = some (a.rule, tokens)) (htoken : a.token ∈ tokens)
    (hscope : Condition.Scoped [] a.rule.conditions) (hrule : a.rule.Reportable) :
    ∃ entry, (session.fire a).2 = .ok entry := by
  obtain ⟨memory, hmemory, hsame, -⟩ := Network.exists_of_matched hmatched
  obtain ⟨firing, hfiring⟩ := firingOf_ok h hmatched htoken hscope
    (Network.hasValues_of_reportable h hmemory (hsame ▸ hrule))
  rw [fire_eq hfiring]
  apply entryOf_ok
  apply Firing.says_perform (fun s => ⟨s, rfl⟩) hrule.reasons
  rw [show ({ firing with store := firing.store.enter } : Firing).explanations = firing.explanations
    from rfl, explanations_of_firingOf hfiring]
  simp

/-! ### Runs -/

/--
The selected activations, the last of which comes first, have left one entry each, in that order. An entry
tells of a fault unless it is of an activation that has fired.
-/
def Traces (before : List TraceEntry) (selected : List Activation) (after : List TraceEntry) : Prop :=
  ∃ entries, after = before ++ entries
    ∧ (entries.map fun entry => (entry.rule, entry.token)) = selected.reverse.map Activation.key
    ∧ ∀ entry ∈ entries, entry.status = .fired ↔ entry.error = none

theorem traces_nil (before : List TraceEntry) : Traces before [] before :=
  ⟨[], by simp, rfl, by simp⟩

theorem Traces.cons {before after : List TraceEntry} {selected : List Activation} {entry : TraceEntry}
    {a : Activation} (hreports : Reports a entry)
    (h : Traces (before ++ [entry]) selected after) : Traces before (selected ++ [a]) after := by
  obtain ⟨entries, hafter, hkeys, hall⟩ := h
  refine ⟨entry :: entries, ?_, ?_, ?_⟩
  . rw [hafter, List.append_assoc, List.singleton_append]
  . rw [List.map_cons, hkeys, List.reverse_append, List.reverse_singleton, List.singleton_append,
      List.map_cons, hreports.rule, hreports.token, Activation.key]
  . rw [List.forall_mem_cons]
    exact ⟨hreports.status, hall⟩

/-- How the loop ends: what it has selected so far, the last one first, and what comes out of it. -/
inductive Ends (session last : Session) (left : Nat) :
    List Activation → Except Fault (Option Halt) → Prop where
  | converged {selected : List Activation} (htraces : Traces session.trace selected last.trace)
      (hagenda : last.network.agenda.size = 0) (hstate : last.state = .converged) :
      Ends session last left selected (.ok none)
  | halted {selected : List Activation} (htraces : Traces session.trace selected last.trace)
      (hlength : selected.length = left) : Ends session last left selected (.ok (some .cycleLimit))
  | escaped {selected : List Activation} (htraces : Traces session.trace selected last.trace)
      {a : Activation} (hrule : ¬ a.rule.Reportable) (fault : Fault) :
      Ends session last left (a :: selected) (.error fault)

theorem Ends.step {session next last : Session} {left : Nat} {selected : List Activation}
    {result : Except Fault (Option Halt)} (h : Ends next last left selected result)
    {a : Activation} {entry : TraceEntry} (htrace : next.trace = session.trace ++ [entry])
    (hreports : Reports a entry) : Ends session last (left + 1) (selected ++ [a]) result := by
  cases h with
  | converged htraces hagenda hstate =>
    exact .converged (.cons hreports (htrace ▸ htraces)) hagenda hstate
  | halted htraces hlength =>
    exact .halted (.cons hreports (htrace ▸ htraces)) (by rw [List.length_append, hlength]; rfl)
  | escaped htraces hrule fault => exact .escaped (.cons hreports (htrace ▸ htraces)) hrule fault

section Loop

variable {session next last : Session} (hbudget : session.timeBudget = none)
  (hsize : session.network.agenda.size ≠ 0) {b : Activation} (hselect : session.select = (next, some b))

theorem loop_idle (hidle : session.network.agenda.size = 0) (left : Nat) :
    session.loop left = ({ session with state := .converged }, .ok none) := by
  unfold loop
  rw [if_pos hidle]

include hsize

theorem loop_halted : session.loop 0 = (session, .ok (some .cycleLimit)) := by
  unfold loop
  rw [if_neg hsize]

include hbudget hselect

theorem loop_escaped {fault : Fault} (hfire : next.beginCycle.fire b = (last, .error fault))
    (left : Nat) : session.loop (left + 1) = (last, .error fault) := by
  have hexhausted : session.exhausted = .ok false := by
    rw [exhausted, hbudget]
  unfold loop
  simp only [hsize, hexhausted, hselect, hfire, if_false]

theorem loop_fired {entry : TraceEntry} (hfire : next.beginCycle.fire b = (last, .ok entry))
    (left : Nat) :
    session.loop (left + 1) = loop left { last with trace := last.trace ++ [entry] } := by
  have hexhausted : session.exhausted = .ok false := by
    rw [exhausted, hbudget]
  conv_lhs => unfold loop
  simp only [hsize, hexhausted, hselect, hfire, if_false]

end Loop

section Runs

variable {ruleSet : RuleSet} (hwellFormed : ruleSet.WellFormed) {fired : List Activation}
  {session : Session} (h : History ruleSet fired session) (hbudget : session.timeBudget = none)

include hwellFormed h

theorem fire_selected {next : Session} {a : Activation} (hselect : session.select = (next, some a))
    (hrule : a.rule.Reportable) : ∃ entry, (next.beginCycle.fire a).2 = .ok entry := by
  have hconsistent := h.consistent hwellFormed
  obtain ⟨hselected, -, -⟩ := attended_select hconsistent.attended hselect
  obtain ⟨seen, hkept⟩ := (hconsistent.select hselect).kept
  obtain ⟨tokens, hmatched, htoken⟩ := hselected.matched
  have hscope := hwellFormed.scope a.rule (h.rule_of_select hwellFormed hselect)
  have hsound : next.beginCycle.network.Sound := hkept.sound
  exact fire_ok hsound hmatched htoken hscope hrule

include hbudget

omit hwellFormed hbudget in
theorem ends_idle (hsize : session.network.agenda.size = 0) (left : Nat) :
    ∃ more, History ruleSet (more ++ fired) (session.loop left).1
      ∧ Ends session (session.loop left).1 left more (session.loop left).2 := by
  rw [loop_idle hsize]
  exact ⟨[], h.noted _ _ _ _, .converged (traces_nil _) hsize rfl⟩

theorem loop_ends (left : Nat) : ∃ more, History ruleSet (more ++ fired) (session.loop left).1
    ∧ Ends session (session.loop left).1 left more (session.loop left).2 := by
  -- By induction on the firings left, over the history up to here.
  induction left generalizing fired session with
  | zero =>
    by_cases hsize : session.network.agenda.size = 0
    . exact ends_idle h hsize _
    . rw [loop_halted hsize]
      exact ⟨[], h, .halted (traces_nil _) rfl⟩
  | succ left ih =>
    by_cases hsize : session.network.agenda.size = 0
    . exact ends_idle h hsize _
    cases hselect : session.select with
    | mk next selected =>
    cases selected with
    | none =>
      -- An agenda that is not empty selects something.
      obtain ⟨seen, hkept⟩ := (h.consistent hwellFormed).kept
      exact absurd (size_of_select hkept.scheduled hselect) hsize
    | some a =>
      have hframe := frame_select hselect
      have hfired := (h.consistent hwellFormed).fire hselect
      cases hfire : next.beginCycle.fire a with
      | mk last result =>
      rw [hfire] at hfired
      have hlast : last = { next.beginCycle with store := last.store, serial := last.serial } :=
        hfired.frame
      have htrace : last.trace = session.trace := by
        rw [hlast, hframe]
        rfl
      cases result with
      | error fault =>
        rw [loop_escaped hbudget hsize hselect hfire]
        refine ⟨[a], h.escaped hselect hfire, .escaped ?_ ?_ fault⟩
        . rw [htrace]
          exact traces_nil _
        . intro hrule
          obtain ⟨entry, hentry⟩ := fire_selected hwellFormed h hselect hrule
          rw [hfire] at hentry
          cases hentry
      | ok entry =>
        have hrest : last.timeBudget = none := by
          rw [hlast, hframe]
          exact hbudget
        obtain ⟨more, hmore, hends⟩ := ih (h.fired hselect hfire) hrest
        rw [loop_fired hbudget hsize hselect hfire]
        exact ⟨more ++ [a], by rw [List.append_assoc]; exact hmore,
          hends.step (congrArg (· ++ [entry]) htrace) (hfired.entry entry rfl)⟩

end Runs

section Completion

variable {spec : RuleSetSpec} {ruleSet : RuleSet} (hcompile : spec.compile = .ok ruleSet)
  {fired : List Activation} {session : Session} (h : History ruleSet fired session)
  (hbudget : session.timeBudget = none) (hfirst : session.result = none)

include hcompile h hbudget hfirst

/--
Whatever its actions do and whatever goes wrong while their changes are matched, a run ends with a result:
it has converged or used up its allowance, and each selected activation has left an entry. It is stopped
by nothing but an activation whose rule reports what may not be computed or joined, and then all
activations before have left their entries.
-/
theorem run_completes : ∃ more, History ruleSet (more ++ fired) session.run.1
    ∧ ((∃ result, session.run.2 = .ok result ∧ Traces session.trace more result.trace
        ∧ (result.state = .converged ∧ result.haltedBy = none ∧ session.run.1.network.agenda.size = 0
          ∨ result.state = .cycleLimitExceeded ∧ result.haltedBy = some Halt.cycleLimit.name
            ∧ more.length = session.allowance))
      ∨ ∃ a earlier fault, more = a :: earlier ∧ ¬ a.rule.Reportable
        ∧ session.run.2 = .error fault ∧ Traces session.trace earlier session.run.1.trace) := by
  obtain ⟨more, hmore, hends⟩ :=
    loop_ends (wellFormed_of_compile hcompile) h hbudget session.allowance
  refine ⟨more, ?_⟩
  unfold run
  rw [hfirst, if_neg (by simp)]
  cases hloop : session.loop session.allowance with
  | mk last outcome =>
    rw [hloop] at hmore hends
    cases hends with
    | converged htraces hagenda hstate =>
      exact ⟨hmore.finish none, .inl ⟨_, rfl, htraces, .inl ⟨hstate, rfl, hagenda⟩⟩⟩
    | halted htraces hlength =>
      exact ⟨hmore.finish (some .cycleLimit), .inl ⟨_, rfl, htraces, .inr ⟨rfl, rfl, hlength⟩⟩⟩
    | escaped htraces hrule fault => exact ⟨hmore, .inr ⟨_, _, fault, rfl, hrule, rfl, htraces⟩⟩

end Completion

/-- The run that closes an order converges. -/
theorem run_completes_open : ∃ more result, (openSession closingSpec.digest).run.2 = .ok result
    ∧ result.state = .converged ∧ Traces (openSession closingSpec.digest).trace more result.trace := by
  have hstate : (openSession closingSpec.digest).run.2.toOption.map (·.state) = some .converged := by
    decide +kernel
  obtain ⟨result, hrun, hconverged⟩ := exists_ok_of_toOption hstate
  obtain ⟨more, -, hends⟩ := run_completes compile_closingSpec history_openSession rfl rfl
  rcases hends with ⟨result', hresult, htraces, -⟩ | ⟨_, _, _, _, _, hfault, _⟩
  . obtain rfl : result' = result := Except.ok.inj (hresult.symm.trans hrun)
    exact ⟨more, result', hrun, hconverged, htraces⟩
  . rw [hrun] at hfault
    cases hfault

/-! ### A report that fails -/

/-- An item above all numbers is opposed by one below them, and the total is reported. -/
def reportSpec : RuleSetSpec where
  factTypes := [{ name := "item" }]
  rules := [
    { name := "oppose"
      priority := 1
      conditions := [.pattern {
        var := "i", factType := "item"
        tests := [{ field := "value", value := .float (.infinite false) }] }]
      actions := [{
        kind := .insert, factType := some "item"
        data := [("value", .literal (.float (.infinite true)))] }] },
    { name := "report"
      conditions := [.aggregate {
        factType := "item", function := "sum", field := some "value", threshold := .int 0
        bind := some "total" }] }]

def reportRules : List Rule := [
  { name := "oppose"
    priority := 1
    conditions := [.pattern
      { type := "item", tests := [{ field := "value", op := .eq, value := .float (.infinite false) }] } "i"]
    action := [.insert "item" [("value", .literal (.float (.infinite true)))]] },
  { name := "report"
    conditions := [.aggregate { type := "item" } []
      { function := .sum, field := some "value", threshold := .int 0, bind := some "total" }]
    order := 1 }]

def reportRuleSet (digest : String) : RuleSet where
  factTypes := [{ name := "item" }]
  rules := reportRules
  index := .build reportRules
  digest

theorem compile_reportSpec : reportSpec.compile = .ok (reportRuleSet reportSpec.digest) :=
  compile_eq_ok.mpr ⟨_, _, rfl, by cbv, rfl⟩

/-- The session before it has facts. -/
def reportSession (digest : String) : Session where
  id := "s"
  ruleSet := reportRuleSet digest
  store := {
    table := { declared := some [{ name := "item" }] }
    listeners := [Network.listener]
    world := (Network.ofRuleSet (reportRuleSet digest)).1 }
  cycleLimit := .int 1000

theorem ofRuleSet_report : ofRuleSet { id := "s" } [] (reportRuleSet reportSpec.digest)
    = .ok (reportSession reportSpec.digest) :=
  ofRuleSet_default (wellFormed_of_compile compile_reportSpec) "s"

/-- The session with an infinite item. -/
def infiniteSession (digest : String) : Session :=
  { reportSession digest with
    store := ((reportSession digest).store.apply
      (.insert (.text "item") (.record [("value", .float (.infinite false))]))).1 }

/-- The run stops at infinities of both signs. -/
def opposed (outcome : Except Fault RunResult) : Bool :=
  outcome matches .error .opposedInfinities

theorem eq_of_opposed {outcome : Except Fault RunResult} (h : opposed outcome = true) :
    outcome = .error .opposedInfinities := by
  unfold opposed at h
  split at h
  . rfl
  . cases h

/-- The total of infinities of both signs cannot be computed, and the run stops without a result. -/
theorem run_escapes : reportSpec.compile = .ok (reportRuleSet reportSpec.digest)
    ∧ History (reportRuleSet reportSpec.digest) [] (infiniteSession reportSpec.digest)
    ∧ (infiniteSession reportSpec.digest).result = none
    ∧ (infiniteSession reportSpec.digest).run.2 = .error .opposedInfinities
    ∧ (infiniteSession reportSpec.digest).run.1.cycle = 2
    ∧ ((infiniteSession reportSpec.digest).run.1.trace.map (·.rule)) = ["oppose"] := by
  have hfault : opposed (infiniteSession reportSpec.digest).run.2 = true := by
    decide +kernel
  have hrun : (infiniteSession reportSpec.digest).run.1.cycle = 2
      ∧ ((infiniteSession reportSpec.digest).run.1.trace.map (·.rule)) = ["oppose"] := by
    decide +kernel
  exact ⟨compile_reportSpec, (History.created ofRuleSet_report).mutated _, rfl, eq_of_opposed hfault,
    hrun⟩

end Session
end ForwardChaining
