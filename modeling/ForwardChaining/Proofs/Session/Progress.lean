import ForwardChaining.Proofs.Session.Calm
import ForwardChaining.Proofs.Session.Completion
import ForwardChaining.Proofs.Session.Revision
import ForwardChaining.Proofs.Store.Refusal

/-!
This module contains what is left of a firing whose action fails on its way. The step that fails does
nothing; the steps before it stay done, the network follows what they have changed, and the trace has their
reasons. Nothing is done of the steps behind it.
-/

namespace ForwardChaining

/-- The step changes facts by values that are written in the rule, or it explains itself. -/
def ActionStep.Written (step : ActionStep) : Prop :=
  step.Literal ∨ ∃ template, step = .explain template

/-- The template of a step that explains itself. -/
def ActionStep.template? : ActionStep → Option String
  | .explain template => some template
  | _ => none

/-- The steps of a firing of the rule: first it is explained, if the rule has a template for that. -/
def Rule.steps (rule : Rule) : List ActionStep :=
  match rule.explanation with
  | some template => if template ≠ "" then .explain template :: rule.action else rule.action
  | none => rule.action

variable {σ : Type}

/-- The steps that are completed before one of them fails, and the fault of this one. -/
def Firing.progress (firing : Firing σ) : List ActionStep → List ActionStep × Option Fault
  | [] => ([], none)
  | step :: steps =>
    match firing.perform (.part step) with
    | (_, .error fault) => ([], some fault)
    | (next, .ok _) => ((next.progress steps).map (step :: ·) id)

namespace Action

/-- The action only looks at the firing. -/
def Looks (a : Action σ α) : Prop :=
  ∀ firing : Firing σ, (firing.perform a).1 = firing

/--
Inside a deferred block, the action fails and leaves the firing as it was, or it does not fail and changes
nothing but the store.
-/
def Atomic (a : Action σ α) : Prop :=
  ∀ firing : Firing σ, firing.store.depth ≠ 0 →
    (∃ fault, firing.perform a = (firing, .error fault))
      ∨ ∃ store x, store.depth = firing.store.depth ∧ firing.perform a = ({ firing with store }, .ok x)

theorem Looks.perform {a : Action σ α} (h : Looks a) (firing : Firing σ) :
    ∃ result, firing.perform a = (firing, result) :=
  ⟨_, Prod.ext (h firing) rfl⟩

theorem looks_pure (x : α) : Looks (pure x : Action σ α) :=
  fun _ => rfl

theorem looks_throw (fault : Fault) : Looks (throw fault : Action σ α) :=
  fun _ => rfl

theorem looks_see (f : Firing σ → Except Fault α) : Looks (see f) :=
  fun firing => by rw [Firing.perform_see]

theorem looks_bind {a : Action σ α} {f : α → Action σ β} (ha : Looks a) (hf : ∀ x, Looks (f x)) :
    Looks (a >>= f) := by
  intro firing
  obtain ⟨result, hperform⟩ := ha.perform firing
  rw [Firing.perform_bind, hperform]
  cases result with
  | ok x => exact hf x firing
  | error fault => rfl

theorem looks_resolve {operand : Operand} (h : ∃ x, operand = .literal x) :
    Looks (resolve operand : Action σ Value) := by
  obtain ⟨x, rfl⟩ := h
  exact looks_pure x

theorem looks_resolveAll {operands : List (String × Operand)}
    (h : ∀ entry ∈ operands, ∃ x, entry.2 = .literal x) :
    Looks (resolveAll operands : Action σ Fields) := by
  induction operands with
  | nil => exact looks_pure []
  | cons first operands ih =>
    rw [List.forall_mem_cons] at h
    exact looks_bind (looks_resolve h.1) fun _ => looks_bind (ih h.2) fun _ => looks_pure _

theorem looks_current (target : Target) : Looks (current target : Action σ Fact) :=
  looks_bind (looks_see _) fun _ => looks_see _

theorem Looks.atomic {a : Action σ α} (h : Looks a) : Atomic a := by
  intro firing _
  obtain ⟨result, hperform⟩ := h.perform firing
  cases result with
  | ok x => exact .inr ⟨firing.store, x, rfl, hperform⟩
  | error fault => exact .inl ⟨fault, hperform⟩

theorem atomic_bind {a : Action σ α} {f : α → Action σ β} (ha : Looks a) (hf : ∀ x, Atomic (f x)) :
    Atomic (a >>= f) := by
  intro firing hdepth
  obtain ⟨result, hperform⟩ := ha.perform firing
  rw [Firing.perform_bind, hperform]
  cases result with
  | ok x => exact hf x firing hdepth
  | error fault => exact .inl ⟨fault, rfl⟩

theorem Atomic.map {a : Action σ α} (ha : Atomic a) (f : α → β) : Atomic (a >>= fun x => pure (f x)) := by
  intro firing hdepth
  rw [Firing.perform_bind]
  rcases ha firing hdepth with ⟨fault, hperform⟩ | ⟨store, x, hstore, hperform⟩
  . rw [hperform]
    exact .inl ⟨fault, rfl⟩
  . rw [hperform]
    exact .inr ⟨store, f x, hstore, rfl⟩

theorem atomic_operation {f : Store σ → Store σ × Except Fault α} (mutation : Mutation)
    (hedge : ¬ mutation.IsEdge) (hspared : ∀ table, ¬ mutation.Wastes table) (answer : α → Mutation.Answer)
    (hf : ∀ store : Store σ, store.operate mutation = (f store).map id (·.map answer)) :
    Atomic (change f) := by
  intro firing hdepth
  have hoperate := Store.operate_deferred hdepth hedge (hspared firing.store.table)
  rw [hf] at hoperate
  rw [Firing.perform_change]
  cases houtcome : f firing.store with
  | mk store result =>
    rw [houtcome] at hoperate
    rcases hoperate with ⟨fault, heq⟩ | ⟨store', x, hdepth', heq⟩
    . obtain ⟨rfl, hresult⟩ := Prod.mk.inj heq
      cases result with
      | ok x => cases hresult
      | error cause => exact .inl ⟨cause, rfl⟩
    . obtain ⟨rfl, hresult⟩ := Prod.mk.inj heq
      cases result with
      | ok x => exact .inr ⟨_, x, hdepth', rfl⟩
      | error cause => cases hresult

theorem atomic_modify (target : Target) (changes : Fields) :
    Atomic (modify target changes : Action σ Answer) := by
  refine atomic_bind (looks_see _) fun _ => atomic_bind (looks_see _) fun ref => Atomic.map ?_ _
  exact atomic_operation (.modify ref changes) id (fun _ ⟨_, _, _, _, heq, _⟩ => by cases heq) .snapshot
    fun _ => rfl

theorem atomic_retract (target : Target) : Atomic (retract target : Action σ Answer) := by
  refine atomic_bind (looks_see _) fun ref => Atomic.map ?_ _
  exact atomic_operation (.retract ref) id (fun _ ⟨_, _, _, _, heq, _⟩ => by cases heq) .snapshot
    fun _ => rfl

theorem atomic_insert (type : String) (data : Fields) :
    Atomic (insert (.text type) (.record data) [] : Action σ Answer) := by
  have hchange : Atomic (change fun store : Store σ => store.insert (.text type) (.record data)) := by
    refine atomic_operation (.insert (.text type) (.record data)) id ?_ .identity fun _ => rfl
    rintro _ ⟨_, _, _, _, heq, htag, _⟩
    cases heq
    exact htag type rfl
  exact atomic_bind (looks_see _) fun _ => hchange.map _

theorem atomic_append (var field : String) {operand : Operand} (h : ∃ x, operand = .literal x)
    (unique : Bool) : Atomic (append var field operand unique : Action σ Unit) := by
  refine atomic_bind (looks_resolve h) fun x => atomic_bind (looks_current _) fun fact => ?_
  have hput (items : List Value) : Atomic (σ := σ)
      (if (unique && x.isIn items) = true then pure () else
        modify (.named (.text var)) [(field, .list (items ++ [x]))] >>= fun _ => pure ()) := by
    split
    . exact (looks_pure ()).atomic
    . exact (atomic_modify _ _).map _
  dsimp only
  split
  . split
    . exact hput _
    . exact atomic_bind (looks_throw _) fun items => hput items
  . exact hput []

theorem atomic_part {step : ActionStep} (h : step.Literal) : Atomic (part step : Action σ Unit) := by
  cases step with
  | set var field operand => exact atomic_bind (looks_resolve h) fun _ => (atomic_modify _ _).map _
  | append var field operand unique => exact atomic_append var field h unique
  | insert type operands => exact atomic_bind (looks_resolveAll h) fun data => (atomic_insert type data).map _
  | retract var => exact (atomic_retract _).map _
  | explain | script => exact False.elim h

theorem perform_explain (firing : Firing σ) (template : String) :
    firing.perform (part (.explain template)) = match firing.format (.text template) with
      | .ok text => ({ firing with explanations := firing.explanations ++ [.text text] }, .ok ())
      | .error fault => (firing, .error fault) := by
  rw [part, Firing.perform_bind, Firing.perform_see]
  cases firing.format (.text template) <;> rfl

theorem perform_written {step : ActionStep} (h : step.Written) {firing : Firing σ}
    (hdepth : firing.store.depth ≠ 0) :
    (∃ fault, firing.perform (part step) = (firing, .error fault))
      ∨ ∃ store texts, store.depth = firing.store.depth
        ∧ step.template?.toList.mapM (fun template => firing.format (.text template)) = .ok texts
        ∧ firing.perform (part step) = ({ firing with
          store, explanations := firing.explanations ++ texts.map .text }, .ok ()) := by
  rcases h with hliteral | ⟨template, rfl⟩
  . rcases atomic_part hliteral firing hdepth with hfails | ⟨store, x, hsame, hperform⟩
    . exact .inl hfails
    . refine .inr ⟨store, [], hsame, ?_, by rw [hperform, List.map_nil, List.append_nil]⟩
      cases step with
      | explain | script => exact False.elim hliteral
      | set | append | insert | retract => rfl
  . rw [perform_explain]
    cases hformat : firing.format (.text template) with
    | error fault => exact .inl ⟨fault, rfl⟩
    | ok text =>
      refine .inr ⟨firing.store, [text], rfl, ?_, rfl⟩
      rw [ActionStep.template?, Option.toList_some, List.mapM_cons, hformat]
      rfl

theorem perform_steps (firing : Firing σ) (rule : Rule) :
    firing.perform (parts rule.steps) = firing.perform (ofRule rule) := by
  unfold ofRule Rule.steps
  dsimp only
  cases rule.explanation with
  | none => rfl
  | some template =>
    dsimp only
    split
    . rw [parts, Firing.perform_bind, perform_explain, Firing.perform_bind, Firing.perform_see]
      cases firing.format (.text template) <;> rfl
    . rfl

end Action

theorem Rule.written_steps {rule : Rule} (h : ∀ step ∈ rule.action, step.Written) :
    ∀ step ∈ rule.steps, step.Written := by
  unfold steps
  split
  . next template _ =>
    split
    . rw [List.forall_mem_cons]
      exact ⟨.inr ⟨template, rfl⟩, h⟩
    . exact h
  . exact h

/-- How an action ends that a fault cuts short, or none. -/
def Action.endOf : Option Fault → Except Fault Unit
  | none => .ok ()
  | some fault => .error fault

/-- How far steps take a firing: up to the first one that fails, with the reasons of those before it. -/
structure Firing.Comes (firing : Firing σ) (steps done : List ActionStep) (fault? : Option Fault)
    (mid : Firing σ) (texts : List String) : Prop where
  progress : firing.progress steps = (done, fault?)
  split : done <+: steps
  completed : firing.perform (.parts done) = (mid, .ok ())
  ended : firing.perform (.parts steps) = (mid, Action.endOf fault?)
  formatted : (done.filterMap (·.template?)).mapM (fun template => firing.format (.text template))
    = .ok texts
  reasons : mid.explanations = firing.explanations ++ texts.map .text

theorem Firing.comes {firing : Firing σ} (hdepth : firing.store.depth ≠ 0) {steps : List ActionStep}
    (hwritten : ∀ step ∈ steps, step.Written) :
    ∃ done fault? mid texts, firing.Comes steps done fault? mid texts := by
  induction steps generalizing firing with
  | nil => exact ⟨[], none, firing, [], rfl, List.nil_prefix, rfl, rfl, rfl, (List.append_nil _).symm⟩
  | cons step steps ih =>
    rw [List.forall_mem_cons] at hwritten
    -- A step that fails leaves the firing as it was, so the steps in front of it are the completed ones.
    rcases Action.perform_written hwritten.1 hdepth with ⟨fault, hstep⟩ |
      ⟨store, own, hstore, hown, hstep⟩
    . refine ⟨[], some fault, firing, [], ?_, List.nil_prefix, rfl, ?_, rfl, (List.append_nil _).symm⟩
      . rw [progress, hstep]
      . rw [Action.parts, perform_bind, hstep]
        rfl
    . generalize hnext : ({ firing with
        store, explanations := firing.explanations ++ own.map .text } : Firing σ) = next at hstep
      have hformat : (fun template => next.format (.text template))
          = fun template => firing.format (.text template) := by
        rw [← hnext]
        rfl
      have hdeferred : next.store.depth ≠ 0 := by
        rw [← hnext]
        exact hstore ▸ hdepth
      obtain ⟨done, fault?, mid, texts, hprogress, hsplit, hcompleted, hended, hformatted, hreasons⟩ :=
        ih hdeferred hwritten.2
      refine ⟨step :: done, fault?, mid, own ++ texts, ?_, List.cons_prefix_cons.mpr ⟨rfl, hsplit⟩,
        ?_, ?_, ?_, ?_⟩
      . rw [progress, hstep]
        dsimp only
        rw [hprogress]
        rfl
      . rw [Action.parts, perform_bind, hstep]
        exact hcompleted
      . rw [Action.parts, perform_bind, hstep]
        exact hended
      . rw [hformat, List.filterMap_eq_flatMap_toList] at hformatted
        rw [List.filterMap_eq_flatMap_toList, List.flatMap_cons, List.mapM_append, hown, hformatted]
        rfl
      . rw [hreasons, ← hnext, List.map_append, List.append_assoc]

namespace Session

theorem performDeferred_eq {firing mid : Firing σ} {action : Action σ Unit} {fault? : Option Fault}
    (h : firing.opened.perform action = (mid, Action.endOf fault?)) : performDeferred firing action
      = ({ mid with store := mid.store.leave.1 }, mid.store.leave.2.or fault?) := by
  have hopened : ({ firing with store := firing.store.enter } : Firing σ).perform action
      = (mid, Action.endOf fault?) := h
  unfold performDeferred
  rw [hopened]
  cases fault? <;> rfl

/--
What a firing leaves whose action completes some steps and is then cut short by a fault, or by none, if these
changes are refused by listeners behind the network, or by none.
-/
structure Leaves (begun : Session) (a : Activation) (firing mid : Firing) (done : List ActionStep)
    (fault? refused : Option Fault) (texts : List String) (last : Session) (entry : TraceEntry) : Prop where
  /-- But for the log, the store is the one behind a firing of the completed steps and no other. -/
  store : last.store = (({ begun with
      store := (performDeferred firing (.parts done)).1.store } : Session).record
        (noteOf begun.cycle a (refused.or fault?))).store
  alone : (performDeferred firing (.parts done)).2 = refused
  /-- The network has followed each change of these steps once, and knows all facts. -/
  delivered : begun.store.depth = 0 → begun.store.pending = [] ∧ last.store.pending = []
    ∧ last.network = (Network.listener.follow begun.network mid.store.pending).record
      [noteOf begun.cycle a (refused.or fault?)]
    ∧ (Change.replay begun.store.table.live mid.store.pending).Perm last.store.table.live
    ∧ last.network.working.facts.Perm last.store.table.live
  /-- Inside another block these changes wait in its queue, once and behind those that were there. -/
  queued : begun.store.depth ≠ 0 → begun.store.pending <+: mid.store.pending
    ∧ last.store.pending = mid.store.pending
    ∧ last.network = begun.network.record [noteOf begun.cycle a (refused.or fault?)]
  refusals : ∀ cause ∈ refused, ∃ other ∈ begun.store.listeners.tail, ∃ change ∈ mid.store.pending, ∃ net,
    (other change net).2 = some cause
  reported : entry = {
    cycle := begun.cycle
    rule := a.rule.name
    token := a.token
    explanation := Text.joinWith "; " texts
    status := .ofFault? (refused.or fault?)
    error := (refused.or fault?).map (·.message)
    errorKind := (refused.or fault?).map (·.kind) }
  fired : entry.status = .fired ↔ refused.or fault? = none
  stale : entry.status = .stale ↔ ∃ ref, refused.or fault? = some (.staleReference ref)

theorem status_ofFault? (fault? : Option Fault) :
    (FiringStatus.ofFault? fault? = .fired ↔ fault? = none)
      ∧ (FiringStatus.ofFault? fault? = .stale ↔ ∃ ref, fault? = some (.staleReference ref)) := by
  cases fault? with
  | none => simp [FiringStatus.ofFault?]
  | some fault => cases fault <;> simp [FiringStatus.ofFault?]

section Leaves

variable {ruleSet : RuleSet} {fired : List RefractionKey} {begun : Session} {a : Activation}
  {firing mid : Firing} {done : List ActionStep} {fault? : Option Fault} {texts : List String}

theorem entryOf_texts (hreasons : mid.explanations = texts.map .text) (cycle : Int) (a : Activation)
    (fault? : Option Fault) : entryOf mid cycle a fault? = .ok {
      cycle
      rule := a.rule.name
      token := a.token
      explanation := Text.joinWith "; " texts
      status := .ofFault? fault?
      error := fault?.map (·.message)
      errorKind := fault?.map (·.kind) } := by
  rw [entryOf, Firing.explanation, hreasons, Fault.texts_text]
  rfl

theorem delivered_of_calm (hattended : begun.store.Attended ruleSet fired) (hcalm : begun.store.Calm ruleSet)
    (hinside : mid.store.Attended ruleSet fired ∧ mid.store.Calm ruleSet)
    (hqueues : begun.store.enter.Queues mid.store) (hdepth : begun.store.depth = 0) :
    begun.store.pending = [] ∧ mid.store.leave.1.pending = []
      ∧ mid.store.leave.1.world = Network.listener.follow begun.network mid.store.pending
      ∧ (Change.replay begun.store.table.live mid.store.pending).Perm mid.store.leave.1.table.live
      ∧ mid.store.leave.1.world.working.facts.Perm mid.store.leave.1.table.live := by
  have hidle := hattended.idle hdepth
  have hblock : mid.store.depth = begun.store.depth + 1 := hqueues.depth
  have hworld : mid.store.world = begun.store.world := hqueues.world
  rw [mid.store.frame_leave.1]
  obtain ⟨hpending, hfollowed, hfacts⟩ := hinside.2.delivered_of_leave hinside.1 (by omega)
  refine ⟨hidle, hpending, by rw [hfollowed, hworld]; rfl, ?_, hfacts⟩
  obtain ⟨known, -, hlive, hknown⟩ := hcalm.abreast
  obtain ⟨seen, -, hlive', hseen⟩ := hinside.2.abreast
  rw [hidle] at hlive
  rw [hworld] at hseen
  have hbefore : begun.store.table.live.Perm seen := hlive.symm.trans (hknown.known.symm.trans hseen.known)
  exact (Change.replay_perm hbefore mid.store.pending).trans hlive'

end Leaves

section Compiled

variable {spec : RuleSetSpec} {ruleSet : RuleSet} (hcompile : spec.compile = .ok ruleSet)
  {fired : List Activation} {session next : Session} {a : Activation}

include hcompile

theorem exists_firing_of_calm (h : Calm ruleSet fired session)
    (hselect : session.select = (next, some a)) : ∃ firing, next.beginCycle.firingOf a = .ok firing := by
  have hwellFormed := wellFormed_of_compile hcompile
  have hconsistent := h.history.consistent hwellFormed
  obtain ⟨hselected, -, hattended⟩ := attended_select hconsistent.attended hselect
  obtain ⟨⟨seen, -, -, habreast⟩, -⟩ :=
    (calm_of_select hwellFormed h.history (h.store hwellFormed) hselect).1
  obtain ⟨tokens, hmatched, htoken⟩ := hselected.matched
  have hrule : a.rule ∈ next.store.world.ruleSet.rules := by
    rw [hattended.same_rules]
    exact h.history.rule_of_select hwellFormed hselect
  have htame := habreast.tame a.rule.name
  have hsound : next.beginCycle.network.Sound := habreast.sound
  exact firingOf_ok hsound hmatched htoken
    (htame.scope a.rule hrule rfl) (Network.hasValues_of_exact habreast.sound htame.exact)

/--
Whichever step of a selected rule is the first to fail, or if none is, what the steps before it have done
stands, and nothing else is done. Unless the firing is itself inside a block, the network has followed each
change of these steps once before anything else is selected. The trace has an entry of the fault, and of the
reasons that the rule and the completed steps give; it is another fault only if a listener behind the network
refuses a change.
-/
theorem completed_steps_stand (h : Calm ruleSet fired session) (hselect : session.select = (next, some a))
    (hwritten : ∀ step ∈ a.rule.action, step.Written)
    (htestable : ∀ change ∈ next.beginCycle.queuedBy a, change.Testable ruleSet.rules) :
    ∃ firing done fault? mid texts refused last entry, next.beginCycle.firingOf a = .ok firing
      ∧ firing.opened.Comes a.rule.steps done fault? mid texts
      ∧ next.beginCycle.fire a = (last, .ok entry)
      ∧ Leaves next.beginCycle a firing mid done fault? refused texts last entry := by
  have hwellFormed := wellFormed_of_compile hcompile
  have hcalm : next.beginCycle.store.Calm ruleSet :=
    have hnext := (calm_of_select hwellFormed h.history (h.store hwellFormed) hselect).1
    ⟨hnext.abreast, hnext.queued⟩
  have hattended : next.beginCycle.store.Attended ruleSet _ :=
    ((h.history.consistent hwellFormed).select hselect).attended.apply .beginCycle
  obtain ⟨firing, hfiring⟩ := exists_firing_of_calm hcompile h hselect
  have hdeferred : firing.opened.store.depth ≠ 0 := Nat.succ_ne_zero _
  obtain ⟨done, fault?, mid, texts, hcomes⟩ := Firing.comes hdeferred (Rule.written_steps hwritten)
  have hwhole : firing.opened.perform (.ofRule a.rule) = (mid, Action.endOf fault?) := by
    rw [← Action.perform_steps, hcomes.ended]
  have hinside := calm_perform hattended hcalm htestable hfiring
  have hqueues := Store.queues_perform hdeferred a.rule
  rw [hwhole] at hinside hqueues
  rw [Firing.opened, store_of_firingOf hfiring] at hqueues
  -- The completed steps alone, as a batch of their own, leave the same store.
  have halone : performDeferred firing (.parts done)
      = ({ mid with store := mid.store.leave.1 }, mid.store.leave.2) := by
    have hcompleted : firing.opened.perform (.parts done) = (mid, Action.endOf none) := hcomes.completed
    rw [performDeferred_eq hcompleted, Option.or_none]
  have hreasons : mid.explanations = texts.map .text := by
    rw [hcomes.reasons]
    exact congrArg (· ++ texts.map Value.text) (explanations_of_firingOf hfiring)
  have hfire := fire_eq hfiring
  rw [performDeferred_eq hwhole, entryOf_texts (by exact hreasons)] at hfire
  refine ⟨firing, done, fault?, mid, texts, mid.store.leave.2, _, _, hfiring, hcomes, hfire,
    ⟨by rw [halone]; rfl, by rw [halone], ?_, ?_, ?_, rfl, (status_ofFault? _).1, (status_ofFault? _).2⟩⟩
  . intro hdepth
    obtain ⟨hidle, hpending, hfollowed, hlive, hknown⟩ :=
      delivered_of_calm hattended hcalm hinside hqueues hdepth
    refine ⟨hidle, hpending, ?_, hlive, hknown⟩
    rw [← hfollowed]
    rfl
  . intro hdepth
    have houter : ¬ mid.store.depth ≤ 1 := by
      rw [hqueues.depth]
      exact Nat.not_le.mpr (Nat.succ_lt_succ (Nat.pos_of_ne_zero hdepth))
    have hleave : mid.store.leave = ({ mid.store with depth := mid.store.depth - 1 }, none) := if_neg houter
    rw [hleave]
    refine ⟨hqueues.pending, rfl, ?_⟩
    exact congrArg (Network.record · _) hqueues.world
  . intro cause hcause
    have hrefused := hinside.2.refused_of_leave hinside.1 hcause
    rwa [hqueues.listeners] at hrefused

end Compiled

/-! ### A firing that loses its fact -/

/-- A task is moved and taken away, and then it cannot be moved any more. -/
def archivingSpec : RuleSetSpec where
  factTypes := [{ name := "task" }, { name := "record" }]
  rules := [{
    name := "archive"
    explanation := some "archiving {t.place}"
    conditions := [.pattern { var := "t", factType := "task" }]
    actions := [
      { kind := .set, target := some "t", field := some "place", value := .literal (.text "attic") },
      { kind := .explain, text := some "moved" },
      { kind := .retract, target := some "t" },
      { kind := .set, target := some "t", field := some "place", value := .literal (.text "cellar") },
      { kind := .insert, factType := some "record" }] }]

def archivingRule : Rule where
  name := "archive"
  explanation := some "archiving {t.place}"
  conditions := [.pattern { type := "task" } "t"]
  action := [
    .set "t" "place" (.literal (.text "attic")),
    .explain "moved",
    .retract "t",
    .set "t" "place" (.literal (.text "cellar")),
    .insert "record" []]

def archivingRuleSet (digest : String) : RuleSet where
  factTypes := [{ name := "task" }, { name := "record" }]
  rules := [archivingRule]
  index := .build [archivingRule]
  digest

theorem compile_archivingSpec :
    archivingSpec.compile = .ok (archivingRuleSet archivingSpec.digest) :=
  compile_eq_ok.mpr ⟨_, _, rfl, by cbv, rfl⟩

/-- The session with a task. -/
def archivingSession (digest : String) : Session where
  id := "s"
  ruleSet := archivingRuleSet digest
  store := (({
    table := { declared := some (archivingRuleSet digest).factTypes }
    listeners := [Network.listener]
    world := (Network.ofRuleSet (archivingRuleSet digest)).1 } : Store Network).apply
      (.insert (.text "task") (.record [("place", .text "hall")]))).1
  cycleLimit := .int 1000

theorem calm_archivingSession :
    Calm (archivingRuleSet archivingSpec.digest) [] (archivingSession archivingSpec.digest) := by
  have hplain : ∀ change ∈ ({ declared := some (archivingRuleSet archivingSpec.digest).factTypes }
      : FactTable).makes (.insert (.text "task") (.record [("place", .text "hall")])), change.Plain := by
    decide +kernel
  have hcreated := ofRuleSet_default (wellFormed_of_compile compile_archivingSpec) "s"
  refine (Calm.created hcreated).mutated (.insert (.text "task") (.record [("place", .text "hall")])) ?_
  exact fun change hchange fact hfact => ((hplain change hchange).regular _ fact hfact).testable

theorem exists_stale {fault? : Option Fault} (h : fault?.any (· matches .staleReference _) = true) :
    ∃ ref, fault? = some (.staleReference ref) := by
  cases fault? with
  | none => cases h
  | some fault =>
    cases fault with
    | staleReference ref => exact ⟨ref, rfl⟩
    | _ => cases h

/-- The task was moved and taken away, so that it is missed, and no record of it is made. -/
theorem completed_steps_stand_archiving : ∃ next a last entry,
    (archivingSession archivingSpec.digest).select = (next, some a)
      ∧ next.beginCycle.fire a = (last, .ok entry)
      ∧ entry.status = .stale ∧ entry.errorKind = some "StaleFactReference"
      ∧ entry.explanation = "archiving hall; moved"
      ∧ last.network.working.facts = [] := by
  have hplain : ∀ a ∈ (archivingSession archivingSpec.digest).select.2, ∀ change ∈
      (archivingSession archivingSpec.digest).select.1.beginCycle.queuedBy a, change.Plain := by
    decide +kernel
  have hobserved : ((archivingSession archivingSpec.digest).select.2.bind fun a =>
      ((archivingSession archivingSpec.digest).select.1.beginCycle.firingOf
        a).toOption.map fun firing =>
        ((firing.opened.progress a.rule.steps).2.any (· matches .staleReference _),
          (((firing.opened.progress a.rule.steps).1.filterMap (·.template?)).mapM
            (fun template => firing.opened.format (.text template))).toOption,
          firing.store.depth, firing.store.listeners.length,
          (Change.replay firing.store.table.live
            (firing.opened.perform (.parts a.rule.steps)).1.store.pending).isEmpty))
      = some (true, some ["archiving hall", "moved"], 0, 1, true) := by
    decide +kernel
  have hcalm := calm_archivingSession
  obtain ⟨next, a, firing, hselect, hfiring, hseen⟩ := exists_observed hobserved
  rw [hselect] at hplain
  have hrule : a.rule = archivingRule := List.mem_singleton.mp
    (hcalm.history.rule_of_select (wellFormed_of_compile compile_archivingSpec) hselect)
  have hwritten : ∀ step ∈ a.rule.action, step.Written := by
    rw [hrule]
    simp [archivingRule, ActionStep.Written, ActionStep.Literal]
  have htestable : ∀ change ∈ next.beginCycle.queuedBy a, change.Testable [archivingRule] :=
    fun change hchange fact hfact => ((hplain a rfl change hchange).regular _ fact hfact).testable
  obtain ⟨firing', done, fault?, mid, texts, refused, last, entry, hfiring', hcomes, hfire, hleaves⟩ :=
    completed_steps_stand compile_archivingSpec hcalm hselect hwritten htestable
  obtain rfl : firing' = firing := Except.ok.inj (hfiring'.symm.trans hfiring)
  rw [hcomes.progress, hcomes.formatted, hcomes.ended, store_of_firingOf hfiring] at hseen
  simp only [Prod.mk.injEq] at hseen
  obtain ⟨hstale, htexts, hdepth, hlisteners, hnone⟩ := hseen
  obtain ⟨ref, rfl⟩ := exists_stale hstale
  obtain rfl := Option.some.inj htexts
  -- There is no listener but the network, so that no change is refused.
  obtain rfl : refused = none := by
    apply Option.eq_none_iff_forall_not_mem.mpr
    intro cause hcause
    obtain ⟨other, hother, -⟩ := hleaves.refusals cause hcause
    have htail : next.beginCycle.store.listeners.tail = [] := by
      rw [← List.length_eq_zero_iff, List.length_tail, hlisteners]
    rw [htail] at hother
    cases hother
  obtain ⟨-, -, -, hlive, hknown⟩ := hleaves.delivered hdepth
  rw [List.isEmpty_iff.mp hnone] at hlive
  refine ⟨next, a, last, entry, hselect, hfire, ?_, ?_, ?_, (hlive.trans hknown.symm).symm.eq_nil⟩
  . exact hleaves.stale.mpr ⟨ref, rfl⟩
  . rw [hleaves.reported]
    rfl
  . rw [hleaves.reported]
    rfl

end Session
end ForwardChaining
