import ForwardChaining.Proofs.Aggregate
import ForwardChaining.Proofs.Session.Refinement

/-!
This module contains what the limit of a session decides. Under a smaller limit a session does what it does
under a larger one, until it would need a firing that it is not allowed any more.
-/

namespace ForwardChaining
namespace Session

/-- The session under another name and another limit. -/
def under (id : String) (limit : Value) (session : Session) : Session :=
  { session with id, cycleLimit := limit }

section Under

variable {options : SessionOptions} {journal : List LogEntry} {ruleSet : RuleSet} (session : Session)
  (id : String) {limit : Value}

theorem ofRuleSet_under {session : Session} (h : ofRuleSet options journal ruleSet = .ok session)
    (hlimit : toZero .less limit = .ok false) :
    ofRuleSet { options with id, cycleLimit := some limit } journal ruleSet
      = .ok (session.under id limit) := by
  obtain ⟨settings, hsettings, -, hstart, rfl⟩ := ofRuleSet_eq_ok_iff.mp h
  exact ofRuleSet_eq_ok_iff.mpr ⟨settings, hsettings, hlimit, hstart, rfl⟩

theorem load_under (facts : List InitialFact) :
    (session.under id limit).load facts = (session.load facts).map (under id limit) := by
  induction facts generalizing session with
  | nil => rfl
  | cons item facts ih =>
    unfold load
    cases item.normalize with
    | error fault => rfl
    | ok fact =>
      have hinsert : ∀ tag data, (session.under id limit).insert tag data
          = ((session.insert tag data).1.under id limit, (session.insert tag data).2) :=
        fun _ _ => rfl
      simp only [bind, Except.bind, hinsert]
      cases session.insert (.text fact.type) (.record fact.data) with
      | mk next result =>
      cases result with
      | error fault => rfl
      | ok ref => exact ih next

theorem createFrom_under {session : Session} {facts : List InitialFact}
    (h : createFrom options journal ruleSet facts = .ok session)
    (hlimit : toZero .less limit = .ok false) :
    createFrom { options with id, cycleLimit := some limit } journal ruleSet facts
      = .ok (session.under id limit) := by
  unfold createFrom at h ⊢
  simp only [doBind_eq_ok] at h ⊢
  obtain ⟨empty, hempty, loaded, hloaded, heq⟩ := h
  refine ⟨_, ofRuleSet_under id hempty hlimit, loaded.under id limit, ?_, ?_⟩
  . rw [load_under, hloaded]
    rfl
  . rw [← Except.ok.inj heq]
    rfl

theorem select_under :
    (session.under id limit).select = (session.select.1.under id limit, session.select.2) := by
  have hagenda : (session.under id limit).network.agenda = session.network.agenda := rfl
  unfold select
  rw [hagenda]
  cases session.network.agenda.select with
  | mk agenda selected => cases selected <;> rfl

theorem fire_under (a : Activation) :
    (session.under id limit).fire a = ((session.fire a).1.under id limit, (session.fire a).2) := by
  have hfiring : (session.under id limit).firingOf a = session.firingOf a := rfl
  unfold fire
  rw [hfiring]
  cases session.firingOf a <;> rfl

theorem loop_under (left : Nat) :
    (session.under id limit).loop left
      = ((session.loop left).1.under id limit, (session.loop left).2) := by
  have hsize : (session.under id limit).network.agenda.size = session.network.agenda.size := rfl
  have hexhausted : (session.under id limit).exhausted = session.exhausted := rfl
  induction left generalizing session with
  | zero =>
    unfold loop
    rw [hsize]
    split <;> rfl
  | succ left ih =>
    unfold loop
    rw [hsize, hexhausted, select_under]
    split
    . rfl
    cases session.exhausted with
    | error fault => rfl
    | ok exhausted =>
    cases exhausted with
    | true => rfl
    | false =>
    cases session.select with
    | mk next selected =>
    cases selected with
    | none => rfl
    | some a =>
      have hfire : (next.under id limit).beginCycle.fire a
          = ((next.beginCycle.fire a).1.under id limit, (next.beginCycle.fire a).2) :=
        fire_under next.beginCycle id a
      simp only [hfire]
      cases next.beginCycle.fire a with
      | mk last result =>
      cases result with
      | error fault => rfl
      | ok entry => exact ih { last with trace := last.trace ++ [entry] } rfl rfl

end Under

/-! ### The loop, round by round -/

theorem cycle_of_fire {session last : Session} {a : Activation} {entry : TraceEntry}
    (hfire : session.fire a = (last, .ok entry)) : entry.cycle = session.cycle := by
  cases hfiring : session.firingOf a with
  | error fault =>
    unfold fire at hfire
    rw [hfiring] at hfire
    cases hfire
  | ok firing =>
    rw [fire_eq hfiring] at hfire
    obtain ⟨explanation, -, rfl⟩ := map_eq_ok.mp (congrArg Prod.snd hfire)
    rfl

/-- The session has come to another one, and these entries tell of it. They are numbered without a gap. -/
structure Advances (session last : Session) (entries : List TraceEntry) : Prop where
  trace : last.trace = session.trace ++ entries
  cycle : last.cycle = session.cycle + entries.length
  numbers : entries.map (·.cycle) = (List.range entries.length).map fun i => session.cycle + (i + 1 : Nat)

theorem Advances.append {session next last : Session} {entries more : List TraceEntry}
    (hfirst : Advances session next entries) (h : Advances next last more) :
    Advances session last (entries ++ more) := by
  refine ⟨?_, ?_, ?_⟩
  . rw [h.trace, hfirst.trace, List.append_assoc]
  . rw [h.cycle, hfirst.cycle, List.length_append]
    omega
  . rw [List.map_append, hfirst.numbers, h.numbers, hfirst.cycle, List.length_append, List.range_add,
      List.map_append, List.map_map]
    refine congrArg _ (List.map_congr_left fun i _ => ?_)
    simp only [Function.comp_apply]
    omega

/--
How the loop stops with so many firings left: it has converged, at once if it leaves no entry, or it has
used up what it had although something is left to fire.
-/
inductive Stops (session last : Session) (left : Nat) : List TraceEntry → Option Halt → Prop where
  | converged {entries : List TraceEntry} (hstate : last.state = .converged)
      (hlength : entries.length ≤ left) (hidle : entries = [] → session.network.agenda.size = 0) :
      Stops session last left entries none
  | halted {entries : List TraceEntry} (hlength : entries.length = left)
      (hsize : last.network.agenda.size ≠ 0) : Stops session last left entries (some .cycleLimit)

theorem Stops.cons {session next last : Session} {left : Nat} {entries : List TraceEntry}
    {halt : Option Halt} (h : Stops next last left entries halt) (entry : TraceEntry) :
    Stops session last (left + 1) (entry :: entries) halt := by
  cases h with
  | converged hstate hlength => exact .converged hstate (Nat.succ_le_succ hlength) (by simp)
  | halted hlength hsize => exact .halted (congrArg (· + 1) hlength) hsize

section Rounds

variable {ruleSet : RuleSet} (hwellFormed : ruleSet.WellFormed) {fired : List Activation}
  {session : Session} (h : History ruleSet fired session) (hbudget : session.timeBudget = none)

include hwellFormed h hbudget

theorem loop_round (hsize : session.network.agenda.size ≠ 0) :
    (∃ last fault, ∀ left, session.loop (left + 1) = (last, .error fault))
    ∨ ∃ a next entry, History ruleSet (a :: fired) next ∧ next.timeBudget = none
      ∧ Advances session next [entry] ∧ ∀ left, session.loop (left + 1) = next.loop left := by
  cases hselect : session.select with
  | mk next selected =>
  cases selected with
  | none =>
    obtain ⟨seen, hkept⟩ := (h.consistent hwellFormed).kept
    exact absurd (size_of_select hkept.scheduled hselect) hsize
  | some a =>
    have hframe := frame_select hselect
    have hfired := (h.consistent hwellFormed).fire hselect
    cases hfire : next.beginCycle.fire a with
    | mk last result =>
    rw [hfire] at hfired
    have hlast : last = { next.beginCycle with store := last.store, serial := last.serial } := hfired.frame
    cases result with
    | error fault => exact .inl ⟨last, fault, loop_escaped hbudget hsize hselect hfire⟩
    | ok entry =>
      have hcycle : next.beginCycle.cycle = session.cycle + 1 := by
        rw [hframe]
        rfl
      refine .inr ⟨a, _, entry, h.fired hselect hfire, ?_, ⟨?_, ?_, ?_⟩,
        loop_fired hbudget hsize hselect hfire⟩
      . rw [hlast, hframe]
        exact hbudget
      . rw [hlast, hframe]
        rfl
      . rw [hlast]
        exact hcycle
      . rw [List.map_singleton, cycle_of_fire hfire, hcycle]
        rfl

theorem loop_advances {left : Nat} {last : Session} {halt : Option Halt}
    (hloop : session.loop left = (last, .ok halt)) : last.timeBudget = none
      ∧ ∃ entries, Advances session last entries ∧ Stops session last left entries halt := by
  -- each round uses up a firing and leaves an entry
  induction left generalizing fired session with
  | zero =>
    by_cases hsize : session.network.agenda.size = 0
    . rw [loop_idle hsize] at hloop
      cases hloop
      exact ⟨hbudget, [], ⟨by simp, by simp, rfl⟩, .converged rfl (Nat.le_refl 0) fun _ => hsize⟩
    . rw [loop_halted hsize] at hloop
      cases hloop
      exact ⟨hbudget, [], ⟨by simp, by simp, rfl⟩, .halted rfl hsize⟩
  | succ left ih =>
    by_cases hsize : session.network.agenda.size = 0
    . rw [loop_idle hsize] at hloop
      cases hloop
      exact ⟨hbudget, [], ⟨by simp, by simp, rfl⟩, .converged rfl (Nat.zero_le _) fun _ => hsize⟩
    rcases loop_round hwellFormed h hbudget hsize with
      ⟨last, fault, hstop⟩ | ⟨a, next, entry, hnext, hbudget, hfirst, hgo⟩
    . rw [hstop] at hloop
      cases hloop
    . obtain ⟨hlast, entries, hrest, hstops⟩ := ih hnext hbudget (hgo left ▸ hloop)
      exact ⟨hlast, entry :: entries, hfirst.append hrest, hstops.cons entry⟩

theorem loop_add (left more : Nat) : session.loop (left + more) = match session.loop left with
    | (last, .ok (some .cycleLimit)) => last.loop more
    | stopped => stopped := by
  -- what stops the loop while it has firings left stops it in the same round with more of them
  induction left generalizing fired session with
  | zero =>
    rw [Nat.zero_add]
    by_cases hsize : session.network.agenda.size = 0
    . rw [loop_idle hsize, loop_idle hsize]
    . rw [loop_halted hsize]
  | succ left ih =>
    rw [Nat.succ_add]
    by_cases hsize : session.network.agenda.size = 0
    . rw [loop_idle hsize, loop_idle hsize]
    rcases loop_round hwellFormed h hbudget hsize with
      ⟨last, fault, hstop⟩ | ⟨a, next, entry, hnext, hbudget, -, hgo⟩
    . rw [hstop, hstop]
    . rw [hgo, hgo]
      exact ih hnext hbudget

/--
With fewer firings left the loop converges to the same session if those are enough, and otherwise it stops
when it has used them up.
-/
theorem loop_le {small large : Nat} (hle : small ≤ large) {last : Session} {halt : Option Halt}
    (hloop : session.loop large = (last, .ok halt)) :
    ∃ entries stopped stop, Advances session last entries ∧ session.loop small = (stopped, .ok stop)
      ∧ Advances session stopped (entries.take small)
      ∧ (stop = none ∧ halt = none ∧ stopped = last ∧ last.state = .converged ∧ entries.length ≤ small
        ∨ stop = some .cycleLimit ∧ ¬ (halt = none ∧ entries.length ≤ small)) := by
  obtain ⟨more, rfl⟩ := Nat.exists_eq_add_of_le hle
  rw [loop_add hwellFormed h hbudget] at hloop
  cases hsmall : session.loop small with
  | mk stopped outcome =>
  rw [hsmall] at hloop
  cases outcome with
  | error fault => cases hloop
  | ok stop =>
  obtain ⟨hrest, entries, hentries, hstops⟩ := loop_advances hwellFormed h hbudget hsmall
  cases hstops with
  | converged hstate hlength =>
    cases hloop
    have htake : Advances session last (entries.take small) := by
      rwa [List.take_of_length_le hlength]
    exact ⟨entries, last, none, hentries, rfl, htake, .inl ⟨rfl, rfl, rfl, hstate, hlength⟩⟩
  | halted hlength hsize =>
    obtain ⟨others, hstopped⟩ := h.loop small
    rw [hsmall] at hstopped
    obtain ⟨-, later, hlater, hends⟩ := loop_advances hwellFormed hstopped hrest hloop
    refine ⟨entries ++ later, stopped, _, hentries.append hlater, rfl, ?_, .inr ⟨rfl, ?_⟩⟩
    . rwa [← hlength, List.take_left]
    . rintro ⟨rfl, hshort⟩
      -- what is left to fire is fired in the next round
      cases hends with
      | converged _ _ hidle =>
        refine hsize (hidle (List.eq_nil_of_length_eq_zero ?_))
        rw [List.length_append] at hshort
        omega

end Rounds

/-! ### Runs -/

theorem trace_finish (session : Session) (halt : Option Halt) :
    (session.finish halt).2.trace = session.trace := by
  cases halt <;> rfl

theorem run_eq_ok (session : Session) (hfirst : session.result = none) {result : RunResult} :
    session.run.2 = .ok result ↔ ∃ last halt, session.loop session.allowance = (last, .ok halt)
      ∧ (last.finish halt).2 = result := by
  unfold run
  rw [hfirst, if_neg (by simp)]
  cases session.loop session.allowance with
  | mk last outcome => cases outcome <;> simp

theorem allowance_of_limit (session : Session) (hcycle : session.cycle = 0) {limit : Nat}
    (hlimit : session.cycleLimit = .int limit) : session.allowance = limit := by
  unfold allowance
  simp only [hlimit, Value.number?, Number.value?, Option.bind_some]
  rw [hcycle, Int.sub_zero, Rat.ceil_intCast, Int.toNat_natCast]

theorem run_under_of_loop {session stopped : Session} (hcycle : session.cycle = 0)
    (hfirst : session.result = none) {limit : Nat} {stop : Option Halt}
    (hloop : session.loop limit = (stopped, .ok stop)) (id : String) :
    (session.under id (.int limit)).run.2 = .ok ((stopped.under id (.int limit)).finish stop).2 := by
  refine (run_eq_ok (session.under id (.int limit)) hfirst).mpr ⟨_, stop, ?_, rfl⟩
  rw [allowance_of_limit (session.under id (.int limit)) hcycle rfl, loop_under, hloop]

theorem toZero_natCast (limit : Nat) : toZero .less (.int limit) = .ok false := by
  unfold toZero
  rw [Value.relate_int]
  have hholds : ¬ Value.Holds .less limit 0 := by
    rw [Value.holds_less]
    omega
  exact congrArg Except.ok (Bool.eq_false_iff.mpr hholds)

theorem createFrom_fresh {options : SessionOptions} {journal : List LogEntry} {ruleSet : RuleSet}
    {facts : List InitialFact} {session : Session}
    (h : createFrom options journal ruleSet facts = .ok session) :
    session.trace = [] ∧ session.cycle = 0 ∧ session.result = none := by
  obtain ⟨empty, mutations, entries, hempty, -, rfl⟩ := createFrom_eq_ok h
  obtain ⟨htrace, hcycle, hfirst⟩ := ofRuleSet_fresh hempty
  exact ⟨htrace, hcycle, hfirst⟩

section Limits

variable {spec : RuleSetSpec} {ruleSet : RuleSet} (hcompile : spec.compile = .ok ruleSet)
  {options : SessionOptions} {journal : List LogEntry} {facts : List InitialFact} {session : Session}
  (hcreate : createFrom options journal ruleSet facts = .ok session)
  (hbudget : session.timeBudget = none)

include hcompile hcreate hbudget

/--
Under a smaller limit, and whatever its name, a session returns a result if it does under a larger one. Its
trace is the first part of the other, as far as the limit goes, and its entries are numbered from one on. It
converges if and only if the other does and the limit is not smaller than the number of firings, and then
with the same facts; otherwise its limit has halted it.
-/
theorem run_under {small large : Nat} (hle : small ≤ large) (hlimit : session.cycleLimit = .int large)
    {result : RunResult} (hrun : session.run.2 = .ok result) (id : String) :
    ∃ limited shorter, createFrom { options with id, cycleLimit := some (.int small) } journal ruleSet facts
        = .ok limited
      ∧ limited.run.2 = .ok shorter
      ∧ shorter.trace = result.trace.take (min small result.trace.length)
      ∧ shorter.trace.map (·.cycle)
        = (List.range (min small result.trace.length)).map (fun i => ((i + 1 : Nat) : Int))
      ∧ (shorter.state = .converged ↔ result.state = .converged ∧ result.trace.length ≤ small)
      ∧ (shorter.state = .converged → shorter.facts = result.facts ∧ shorter.haltedBy = none)
      ∧ (shorter.state ≠ .converged →
        shorter.state = .cycleLimitExceeded ∧ shorter.haltedBy = some Halt.cycleLimit.name) := by
  obtain ⟨htrace, hcycle, hfirst⟩ := createFrom_fresh hcreate
  obtain ⟨last, halt, hloop, rfl⟩ := (run_eq_ok session hfirst).mp hrun
  rw [allowance_of_limit session hcycle hlimit] at hloop
  obtain ⟨entries, stopped, stop, hlast, hsmall, hstopped, hends⟩ :=
    loop_le (wellFormed_of_compile hcompile) (history_createFrom hcreate) hbudget hle hloop
  have hfull : (last.finish halt).2.trace = entries := by
    rw [trace_finish, hlast.trace, htrace, List.nil_append]
  have htake : ((stopped.under id (.int small)).finish stop).2.trace = entries.take small := by
    rw [trace_finish]
    exact hstopped.trace.trans (by rw [htrace, List.nil_append])
  refine ⟨session.under id (.int small), _, createFrom_under id hcreate (toZero_natCast small),
    run_under_of_loop hcycle hfirst hsmall id, ?_, ?_, ?_⟩
  . rw [htake, hfull, ← List.take_eq_take_min]
  . rw [htake, hstopped.numbers, hfull, List.length_take, hcycle]
    simp only [Int.zero_add]
  rw [hfull]
  -- the limit is only looked at when something is left to fire, so that it may be just enough
  rcases hends with ⟨rfl, rfl, rfl, hstate, hlength⟩ | ⟨rfl, hlonger⟩
  . have hconverged : ((stopped.under id (.int small)).finish none).2.state = .converged := hstate
    exact ⟨⟨fun _ => ⟨hstate, hlength⟩, fun _ => hconverged⟩, fun _ => ⟨rfl, rfl⟩,
      fun hother => absurd hconverged hother⟩
  . have hhalted : ((stopped.under id (.int small)).finish (some .cycleLimit)).2.state ≠ .converged :=
      nofun
    refine ⟨⟨fun hstate => absurd hstate hhalted, ?_⟩, fun hstate => absurd hstate hhalted,
      fun _ => ⟨rfl, rfl⟩⟩
    rintro ⟨hstate, hlength⟩
    cases halt with
    | none => exact absurd ⟨rfl, hlength⟩ hlonger
    | some halt => cases hstate

end Limits

/-- The session with an open order, under a limit that is not reached. -/
def ampleSession (digest : String) : Session :=
  (orderSession digest).under "s" (.int 1000)

theorem createFrom_ample :
    createFrom { id := "s", cycleLimit := some (.int 1000) } [] (closingRuleSet closingSpec.digest)
      [.checked { type := "order", data := [("open", .bool true)] }]
        = .ok (ampleSession closingSpec.digest) := by
  have hunder := createFrom_under "s" createFrom_order (toZero_natCast 1000)
  exact hunder

/-- Three firings are needed: a limit of two halts the session after the second one. -/
theorem run_under_order : ∃ result limited shorter, (ampleSession closingSpec.digest).run.2 = .ok result
    ∧ result.state = .converged ∧ result.trace.length = 3
    ∧ createFrom { id := "t", cycleLimit := some (.int 2) } [] (closingRuleSet closingSpec.digest)
      [.checked { type := "order", data := [("open", .bool true)] }] = .ok limited
    ∧ limited.run.2 = .ok shorter ∧ shorter.trace = result.trace.take 2
    ∧ shorter.state = .cycleLimitExceeded := by
  have hfires : (ampleSession closingSpec.digest).run.2.toOption.map
      (fun (result : RunResult) => (result.state, result.trace.length)) = some (.converged, 3) := by
    decide +kernel
  obtain ⟨result, hrun, hseen⟩ := exists_ok_of_toOption hfires
  obtain ⟨hstate, hlength⟩ := Prod.mk.inj hseen
  obtain ⟨limited, shorter, hlimited, hshorter, htrace, -, hconverged, -, hhalted⟩ :=
    run_under compile_closingSpec createFrom_ample rfl (by decide : 2 ≤ 1000) rfl hrun "t"
  have hlonger : shorter.state ≠ .converged := by
    rw [Ne, hconverged, hlength]
    omega
  rw [hlength] at htrace
  exact ⟨result, limited, shorter, hrun, hstate, hlength, hlimited, hshorter, htrace,
    (hhalted hlonger).1⟩

end Session
end ForwardChaining
