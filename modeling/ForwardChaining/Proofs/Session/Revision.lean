import ForwardChaining.Proofs.Session.Scope
import ForwardChaining.Proofs.Store.Revision

/-!
This module contains what a step does that puts a written value into a field of a bound fact: the live fact
of the variable gets one new version, in which this field is replaced and nothing else. The exceptions are a
few names of fields that the compiler accepts but under which no field can be changed.
-/

namespace ForwardChaining

variable {σ : Type}

/-- The live fact that a variable stands for. -/
def Firing.target? (firing : Firing σ) (var : String) : Option Fact :=
  (firing.bindings.lookup var).bind fun bound => firing.store.table.find? bound.id

/--
The field of a variable that a step changes, whose live fact is given, and the value that belongs into it.
There is none if the value to append is in the list already and may be there only once.
-/
inductive ActionStep.Asks (old : Fact) : ActionStep → String → String → Option Value → Prop where
  | set (var field : String) (x : Value) : Asks old (.set var field (.literal x)) var field (some x)
  | append (var : String) {field : String} (x : Value) {unique : Bool} {items : List Value}
    (hitems : old.get field = .list items ∨ old.get field = .null ∧ items = [])
    (hnew : ¬ (unique = true ∧ x.isIn items = true)) :
    Asks old (.append var field (.literal x) unique) var field (some (.list (items ++ [x])))
  | repeated (var : String) {field : String} (x : Value) {items : List Value}
    (hitems : old.get field = .list items) (hold : x.isIn items = true) :
    Asks old (.append var field (.literal x) true) var field none

namespace Action

/-! ### Parts in order -/

theorem perform_parts_append (firing : Firing σ) (ps qs : List ActionStep) :
    firing.perform (parts (ps ++ qs)) = match firing.perform (parts ps) with
      | (next, .ok _) => next.perform (parts qs)
      | (next, .error fault) => (next, .error fault) := by
  induction ps generalizing firing with
  | nil => rfl
  | cons p ps ih =>
    rw [List.cons_append, parts, parts, Firing.perform_bind, Firing.perform_bind]
    cases firing.perform (part p) with
    | mk next result =>
      cases result with
      | ok x => exact ih next
      | error fault => rfl

theorem perform_ofRule (firing : Firing σ) (rule : Rule) :
    firing.perform (ofRule rule) = match firing.perform (ofRule { rule with action := [] }) with
      | (next, .ok _) => next.perform (parts rule.action)
      | (next, .error fault) => (next, .error fault) := by
  unfold ofRule
  dsimp only
  cases rule.explanation with
  | none => rfl
  | some template =>
    dsimp only
    split
    . rw [Firing.perform_bind, Firing.perform_bind, Firing.perform_see]
      cases firing.format (.text template) <;> rfl
    . rfl

theorem perform_ofRule_append {firing mid : Firing σ} {rule : Rule} {before after : List ActionStep}
    (hsplit : rule.action = before ++ after)
    (h : firing.perform (ofRule { rule with action := before }) = (mid, .ok ())) :
    firing.perform (ofRule rule) = mid.perform (parts after) := by
  rw [perform_ofRule] at h ⊢
  dsimp only at h
  cases hopening : firing.perform (ofRule { rule with action := [] }) with
  | mk next result =>
    rw [hopening] at h
    cases result with
    | error fault => cases h
    | ok x =>
      dsimp only at h ⊢
      rw [hsplit, perform_parts_append, h]

/-! ### Changing a field -/

theorem identity_of_lookup {firing : Firing σ} {var : String} {bound : Fact}
    (h : firing.bindings.lookup var = some bound) :
    firing.surroundings.identity (.named (.text var)) = .ok (.int bound.id) := by
  have hbound : firing.surroundings.bound (.text var) = .ok bound := lookUp_text h
  rw [Surroundings.identity, hbound]
  rfl

section Target

variable {firing : Firing σ} {var : String} {old : Fact} (htarget : firing.target? var = some old)

include htarget

theorem perform_current : firing.perform (current (.named (.text var))) = (firing, .ok old) := by
  obtain ⟨bound, hbound, hfound⟩ := Option.bind_eq_some_iff.mp htarget
  rw [current, Firing.perform_bind, identity, Firing.perform_see, identity_of_lookup hbound]
  dsimp only
  rw [Firing.perform_see, FactTable.get_int, hfound]

theorem perform_modify_reserved {field : String} (hreserved : field ∈ reservedFields) (x : Value) :
    ∃ callee, firing.perform (modify (.named (.text var)) [(field, x)])
      = (firing, .error (.repeatedArgument callee field)) := by
  obtain ⟨bound, hbound, -⟩ := Option.bind_eq_some_iff.mp htarget
  simp only [reservedFields, List.mem_cons, List.not_mem_nil, or_false] at hreserved
  rcases hreserved with rfl | rfl | rfl
  . exact ⟨"ActionContext.modify", rfl⟩
  . exact ⟨"ActionContext.modify", rfl⟩
  . refine ⟨"FactStore.modify", ?_⟩
    have hrequired : Fields.requireFree [("fact_id", x)] "ActionContext.modify" ["self", "target"]
        = .ok () := rfl
    rw [modify, Firing.perform_bind, Firing.perform_see, hrequired]
    dsimp only
    rw [Firing.perform_bind, identity, Firing.perform_see, identity_of_lookup hbound]
    dsimp only
    rw [Firing.perform_bind, Firing.perform_change, Store.modify_fact_id]

theorem perform_part {step : ActionStep} {field : String} {wanted : Option Value}
    (hasks : step.Asks old var field wanted) :
    firing.perform (part step) = match wanted with
      | none => (firing, .ok ())
      | some x => firing.perform (modify (.named (.text var)) [(field, x)] >>= fun _ => pure ()) := by
  have hresolve : ∀ x, firing.perform (resolve (.literal x)) = (firing, .ok x) := fun _ => rfl
  have happend : ∀ (x : Value) (unique : Bool) (items : List Value),
      old.get field = .list items ∨ old.get field = .null ∧ items = [] →
      firing.perform (append var field (.literal x) unique)
        = firing.perform (if (unique && x.isIn items) = true then pure () else
          modify (.named (.text var)) [(field, .list (items ++ [x]))] >>= fun _ => pure ()) := by
    intro x unique items hitems
    rw [append, Firing.perform_bind, hresolve]
    dsimp only
    rw [Firing.perform_bind, perform_current htarget]
    dsimp only
    rcases hitems with hitems | ⟨hnull, rfl⟩
    . rw [hitems]
      cases items <;> rfl
    . rw [hnull]
      rfl
  cases hasks with
  | set var field x =>
    rw [part, Firing.perform_bind, hresolve]
  | @append _ field x unique items hitems hnew =>
    rw [part, happend x unique items hitems, if_neg (by simpa using hnew)]
  | @repeated _ field x items hitems hold =>
    rw [part, happend x true items (.inl hitems), if_pos (by simpa using hold)]
    rfl

variable {types : List FactType} {bindings : Bindings} (hready : firing.Ready types bindings)

include hready

theorem live_target {bound : Bound} (hdistinct : (bound.map (·.1)).Nodup) {facts : List Fact}
    (hfit : Bindings.Fit facts bound bindings) {type : String} (hvar : (var, type) ∈ bound) :
    old ∈ firing.store.table.live ∧ old.type = type := by
  obtain ⟨found, hfound, hlive⟩ := Option.bind_eq_some_iff.mp htarget
  obtain ⟨hmem, hid⟩ := (FactTable.find?_eq_some_iff hready.tidy.wellFormed).mp hlive
  obtain ⟨found', -, hfound', htype⟩ := hfit.lookup hdistinct hvar
  rw [hready.sees] at hfound
  obtain rfl : found = found' := Option.some.inj (hfound.symm.trans hfound')
  obtain ⟨before, after, hsplit, -⟩ := List.lookup_eq_some_iff.mp hfound
  have hbound : found ∈ bindings.map (·.2) := by simp [hsplit]
  exact ⟨hmem, ((hready.issued found hbound).2 old hmem hid).trans htype⟩

variable (hnames : (types.map (·.name)).Nodup)

include hnames

theorem perform_modify {field : String} (hfield : Declarations.hasField types old.type field = true)
    (hfree : field ∉ reservedFields) (x : Value) :
    ∃ new : Fact, new.Replaces old field x ∧ new.recency = firing.store.table.clock + 1
      ∧ firing.perform (modify (.named (.text var)) [(field, x)])
        = ({ firing with store := firing.store.revise new old }, .ok (.fact new)) := by
  obtain ⟨bound, hbound, hfound⟩ := Option.bind_eq_some_iff.mp htarget
  have hget : firing.store.table.get (.int bound.id) = .ok old := by
    rw [FactTable.get_int, hfound]
  obtain ⟨new, hreplaces, hrecency, hmodify⟩ := Store.modify_revises hready.deferred hnames
    hready.declared hready.tidy hget hfield hfree x
  refine ⟨new, hreplaces, hrecency, ?_⟩
  have hrequired : Fields.requireFree [(field, x)] "ActionContext.modify" ["self", "target"]
      = .ok () := by
    simp only [reservedFields, List.mem_cons, not_or] at hfree
    simp [Fields.requireFree, hfree]
  rw [modify, Firing.perform_bind, Firing.perform_see, hrequired]
  dsimp only
  rw [Firing.perform_bind, identity, Firing.perform_see, identity_of_lookup hbound]
  dsimp only
  rw [Firing.perform_bind, Firing.perform_change, hmodify]
  rfl

end Target

end Action
namespace Session

section Compiled

variable {spec : RuleSetSpec} {ruleSet : RuleSet} (hcompile : spec.compile = .ok ruleSet)
  {fired : List Activation} {session next : Session} {a : Activation} {firing : Firing}

include hcompile

theorem ready_of_select (h : History ruleSet fired session) (hselect : session.select = (next, some a))
    (hfiring : next.beginCycle.firingOf a = .ok firing) :
    ({ firing with store := firing.store.enter } : Firing).Ready ruleSet.factTypes firing.bindings
      ∧ Bindings.Fit next.network.working.facts a.rule.bound firing.bindings := by
  have hwellFormed := wellFormed_of_compile hcompile
  have hfit := (firingOf_select hcompile h hselect).2 firing hfiring
  have hattended := ((h.consistent hwellFormed).select hselect).attended
  have htyped : next.beginCycle.store.Typed ruleSet.factTypes :=
    ((h.selected hselect).typed hwellFormed).apply hattended .beginCycle
  have hstore : firing.store = next.beginCycle.store := store_of_firingOf hfiring
  have hknown : Bindings.Fit firing.store.world.working.facts a.rule.bound firing.bindings := by
    rw [hstore]
    exact hfit
  exact ⟨Firing.ready_enter (hstore ▸ htyped) hknown, hfit⟩

/--
A step of a compiled rule that puts a written value into a field, wherever it stands in the action and
whatever was done before it: if the variable stands for a live fact, this fact gets one new version, in which
the field holds the value and all else is as it was, and the change is queued. Nothing happens if the value
may be in the list only once and is in it. But under a few names, which the compiler accepts, the step fails.
-/
theorem step_revises_field (h : History ruleSet fired session)
    (hselect : session.select = (next, some a)) (hfiring : next.beginCycle.firingOf a = .ok firing)
    {before after : List ActionStep} {step : ActionStep}
    (hsplit : a.rule.action = before ++ step :: after) {mid : Firing}
    (hmid : ({ firing with store := firing.store.enter } : Firing).perform
      (.ofRule { a.rule with action := before }) = (mid, .ok ()))
    {old : Fact} {var field : String} {wanted : Option Value} (hasks : step.Asks old var field wanted)
    (htarget : mid.target? var = some old) :
    ({ firing with store := firing.store.enter } : Firing).perform (.ofRule a.rule)
      = mid.perform (.parts (step :: after))
    ∧ (wanted = none → mid.perform (.part step) = (mid, .ok ()))
    ∧ ∀ x, wanted = some x →
      (field ∉ reservedFields → ∃ new : Fact, new.Replaces old field x
        ∧ new.recency = mid.store.table.clock + 1
        ∧ mid.perform (.part step) = ({ mid with store := mid.store.revise new old }, .ok ())
        ∧ ∀ id, (mid.store.revise new old).table.find? id
          = if id = old.id then some new else mid.store.table.find? id)
      ∧ (field ∈ reservedFields → ∃ callee,
        mid.perform (.part step) = (mid, .error (.repeatedArgument callee field))) := by
  obtain ⟨hnames, hrules⟩ := scoped_of_compile hcompile
  obtain ⟨hready, hfit⟩ := ready_of_select hcompile h hselect hfiring
  have hscoped := hrules a.rule (h.rule_of_select (wellFormed_of_compile hcompile) hselect)
  have hmidready : mid.Ready ruleSet.factTypes firing.bindings := by
    have := (Action.preserves_ofRule Firing.Ready.lasting { a.rule with action := before }).invariant
      _ hready
    rwa [hmid] at this
  -- the live fact has the type of the variable, which declares the field
  obtain ⟨type, hvar, hfield⟩ : ∃ type, (var, type) ∈ a.rule.bound
      ∧ Declarations.hasField ruleSet.factTypes type field = true := by
    have hstep := hscoped.steps step (by rw [hsplit]; simp)
    cases hasks <;> exact hstep
  obtain ⟨hlive, htype⟩ := Action.live_target htarget hmidready hscoped.distinct hfit hvar
  have hpart := Action.perform_part htarget hasks
  refine ⟨Action.perform_ofRule_append hsplit hmid, ?_, ?_⟩
  . rintro rfl
    exact hpart
  rintro x rfl
  dsimp only at hpart
  rw [hpart, Firing.perform_bind]
  constructor
  . intro hfree
    obtain ⟨new, hreplaces, hrecency, hmodify⟩ := Action.perform_modify htarget hmidready hnames
      (htype ▸ hfield) hfree x
    refine ⟨new, hreplaces, hrecency, ?_, ?_⟩
    . rw [hmodify]
      rfl
    . intro id
      rw [← hreplaces.id]
      exact FactTable.find?_replace hmidready.tidy.wellFormed hlive hreplaces.id id
  . intro hreserved
    obtain ⟨callee, hmodify⟩ := Action.perform_modify_reserved htarget hreserved x
    exact ⟨callee, by rw [hmodify]⟩

end Compiled

/-! ### Fields with reserved names -/

/-- The target of a task is moved, and what was done is noted in its log. -/
def movingSpec (field : String) : RuleSetSpec where
  factTypes := [{ name := "task" }]
  rules := [{
    name := "move"
    conditions := [.pattern { var := "t", factType := "task" }]
    actions := [
      { kind := .set, target := some "t", field := some field, value := .literal (.text "x") },
      { kind := .append, target := some "t", field := some "log", value := .literal (.text "moved") }] }]

def movingRule (field : String) : Rule where
  name := "move"
  conditions := [.pattern { type := "task" } "t"]
  action := [
    .set "t" field (.literal (.text "x")),
    .append "t" "log" (.literal (.text "moved")) false]

def movingRuleSet (field : String) (digest : String) : RuleSet where
  factTypes := [{ name := "task" }]
  rules := [movingRule field]
  index := .build [movingRule field]
  digest

theorem compile_movingSpec_target :
    (movingSpec "target").compile = .ok (movingRuleSet "target" (movingSpec "target").digest) :=
  compile_eq_ok.mpr ⟨_, _, rfl, rfl, rfl⟩

theorem compile_movingSpec_place :
    (movingSpec "place").compile = .ok (movingRuleSet "place" (movingSpec "place").digest) :=
  compile_eq_ok.mpr ⟨_, _, rfl, rfl, rfl⟩

/-- The session with a task. -/
def movingSession (field digest : String) : Session where
  id := "s"
  ruleSet := movingRuleSet field digest
  store := (({
    table := { declared := some (movingRuleSet field digest).factTypes }
    listeners := [Network.listener]
    world := (Network.ofRuleSet (movingRuleSet field digest)).1 } : Store Network).apply
      (.insert (.text "task") (.record [(field, .text "y")]))).1
  cycleLimit := .int 1000

theorem history_movingSession {field digest : String}
    (h : (movingSpec field).compile = .ok (movingRuleSet field digest)) :
    History (movingRuleSet field digest) [] (movingSession field digest) :=
  (History.created (ofRuleSet_default (wellFormed_of_compile h) "s")).mutated
    (.insert (.text "task") (.record [(field, .text "y")]))

/-- The rule compiles, but its target cannot be moved where the field has the name of an argument. -/
theorem reserved_field_fails :
    (movingSpec "target").compile = .ok (movingRuleSet "target" (movingSpec "target").digest)
    ∧ History (movingRuleSet "target" (movingSpec "target").digest) []
      (movingSession "target" (movingSpec "target").digest)
    ∧ (movingSession "target" (movingSpec "target").digest).run.1.trace.map
        (fun entry => (entry.rule, entry.status, entry.error))
      = [("move", .failed,
        some "ActionContext.modify() got multiple values for argument 'target'")]
    ∧ (movingSession "target" (movingSpec "target").digest).run.1.store.table.live.map
        (fun fact => (fact.version, (fact.get "target").eq (.text "y"))) = [(1, true)] := by
  refine ⟨compile_movingSpec_target, history_movingSession compile_movingSpec_target, ?_, ?_⟩
  . decide +kernel
  . decide +kernel

/-- The log is noted in the version of the task that the step before has made. -/
theorem step_revises_field_log : ∃ (mid : Firing) (old new : Fact), old.version = 2
    ∧ new.Replaces old "log" (.list [.text "moved"])
    ∧ mid.perform (.part (.append "t" "log" (.literal (.text "moved")) false))
      = ({ mid with store := mid.store.revise new old }, .ok ()) := by
  have hobserved : ((movingSession "place" (movingSpec "place").digest).select.2.bind fun a =>
      ((movingSession "place" (movingSpec "place").digest).select.1.beginCycle.firingOf
        a).toOption.map fun firing =>
        let ended := ({ firing with store := firing.store.enter } : Firing).perform
          (.ofRule { movingRule "place" with action := [.set "t" "place" (.literal (.text "x"))] })
        (ended.2.isOk, (ended.1.target? "t").map fun task =>
          (task.version, Value.null.same (task.get "log")))) = some (true, some (2, true)) := by
    decide +kernel
  obtain ⟨next, a, firing, hselect, hfiring, hseen⟩ := exists_observed hobserved
  have hhistory := history_movingSession compile_movingSpec_place
  have hrule : a.rule = movingRule "place" := List.mem_singleton.mp
    (hhistory.rule_of_select (wellFormed_of_compile compile_movingSpec_place) hselect)
  cases hended : ({ firing with store := firing.store.enter } : Firing).perform
      (.ofRule { movingRule "place" with action := [.set "t" "place" (.literal (.text "x"))] }) with
  | mk mid result =>
    rw [hended] at hseen
    obtain ⟨hok, htask⟩ := Prod.mk.inj hseen
    obtain ⟨old, htarget, hold⟩ := Option.map_eq_some_iff.mp htask
    obtain ⟨hversion, hnull⟩ := Prod.mk.inj hold
    have hlog : old.get "log" = .null := by
      generalize old.get "log" = x at hnull
      cases x with
      | null => rfl
      | _ => cases hnull
    obtain rfl : result = .ok () := by
      cases result with
      | ok => rfl
      | error => cases hok
    have hsplit : a.rule.action = [.set "t" "place" (.literal (.text "x"))]
        ++ .append "t" "log" (.literal (.text "moved")) false :: [] := by
      rw [hrule]
      rfl
    have hasks : ActionStep.Asks old (.append "t" "log" (.literal (.text "moved")) false) "t" "log"
        (some (.list ([] ++ [.text "moved"]))) :=
      .append "t" (.text "moved") (.inr ⟨hlog, rfl⟩) (by simp)
    rw [← hrule] at hended
    obtain ⟨-, -, hputs⟩ := step_revises_field compile_movingSpec_place hhistory hselect hfiring hsplit
      hended hasks htarget
    obtain ⟨new, hreplaces, -, hperform, -⟩ := (hputs _ rfl).1 (by decide)
    exact ⟨mid, old, new, hversion, hreplaces, hperform⟩

end Session
end ForwardChaining
