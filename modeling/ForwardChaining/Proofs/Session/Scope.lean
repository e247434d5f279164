import ForwardChaining.Proofs.Network.Binding
import ForwardChaining.Proofs.Session.Typing
import ForwardChaining.Proofs.Store.Scope
import Mathlib

/-!
This module contains that compiled rules do not go wrong: whatever a session did before, the conditions of a
rule find all variables that they read, and an action that changes facts by written values finds all that it
names, in the rule as well as among the declared types.
-/

namespace ForwardChaining

/-- The step changes facts by values that are written in the rule. -/
def ActionStep.Literal : ActionStep → Prop
  | .set _ _ operand | .append _ _ operand _ => ∃ x, operand = .literal x
  | .insert _ operands => ∀ entry ∈ operands, ∃ x, entry.2 = .literal x
  | .retract _ => True
  | .explain _ | .script _ => False

variable {σ : Type}

/--
The firing of a rule inside a deferred block. The facts that it sees may be gone, but no fact of another
type has taken their place.
-/
structure Firing.Ready (types : List FactType) (bindings : Bindings) (firing : Firing σ) : Prop where
  deferred : firing.store.depth ≠ 0
  declared : firing.store.table.declared = some types
  tidy : firing.store.table.Tidy
  sees : firing.bindings = bindings
  issued : firing.store.table.Issued (bindings.map (·.2))

theorem Firing.Ready.apply {types : List FactType} {bindings : Bindings} {firing : Firing σ}
    (h : firing.Ready types bindings) {mutation : Mutation} (hedge : ¬ mutation.IsEdge) :
    ({ firing with store := (firing.store.apply mutation).1 } : Firing σ).Ready types bindings := by
  have hmoves := firing.store.table.moves_mutate mutation
  have htable := Store.table_apply firing.store hedge
  refine ⟨?_, ?_, ?_, h.sees, ?_⟩
  . rw [Store.depth_apply firing.store hedge]
    exact h.deferred
  . rw [htable, firing.store.table.declared_mutate, h.declared]
  . rw [htable]
    exact hmoves.tidy h.tidy
  . rw [htable]
    exact h.issued.follows hmoves.follows

theorem Firing.Ready.lasting {types : List FactType} {bindings : Bindings} :
    Action.Lasting (¬ ·.IsEdge) (Firing.Ready (σ := σ) types bindings) :=
  ⟨fun _ _ hedge h => h.apply hedge,
    fun _ _ h => ⟨h.deferred, h.declared, h.tidy, h.sees, h.issued⟩,
    fun _ h => ⟨h.deferred, h.declared, h.tidy, h.sees, h.issued⟩⟩

theorem Firing.ready_enter {types : List FactType} {firing : Firing}
    (htyped : firing.store.Typed types) {bound : Bound}
    (hfit : Bindings.Fit firing.store.world.working.facts bound firing.bindings) :
    ({ firing with store := firing.store.enter } : Firing).Ready types firing.bindings := by
  have hfacts : firing.bindings.map (·.2) ⊆ firing.store.world.working.facts := by
    intro fact hfact
    obtain ⟨binding, hbinding, rfl⟩ := List.mem_map.mp hfact
    obtain ⟨-, -, -, hmem, -⟩ := hfit.mem hbinding
    exact hmem
  refine ⟨Nat.succ_ne_zero _, htyped.declared, htyped.tidy, rfl, ?_⟩
  exact (FactTable.issued_append.mp htyped.issued).1.subset hfacts

namespace Action

/-- In the deferred firing of a rule the action finds all variables, types and fields that it names. -/
def InScope (types : List FactType) (bindings : Bindings) (a : Action σ α) : Prop :=
  Meets (Firing.Ready types bindings) (fun _ => True) (fun fault => ¬ fault.OutOfScope) a

section Literal

variable {types : List FactType} {bindings : Bindings} {bound : Bound} {facts : List Fact}
  (hnames : (types.map (·.name)).Nodup) (hdistinct : (bound.map (·.1)).Nodup)
  (hfit : Bindings.Fit facts bound bindings)

include hdistinct hfit

theorem meets_identity {var type : String} (hvar : (var, type) ∈ bound) :
    Meets (Firing.Ready (σ := σ) types bindings)
      (fun ref => ∃ fact ∈ bindings.map (·.2), fact.type = type ∧ ref = .int fact.id)
      (fun fault => ¬ fault.OutOfScope) (identity (.named (.text var))) := by
  have hbinds : bindings.Binds var := by
    rw [Bindings.Binds, hfit.map_fst]
    exact List.mem_map.mpr ⟨_, hvar, rfl⟩
  obtain ⟨fact, -, hlookup, htype⟩ := hfit.lookup hdistinct hvar
  obtain ⟨fact', hlookup', hmem⟩ := hbinds.lookup
  obtain rfl : fact = fact' := Option.some.inj (hlookup.symm.trans hlookup')
  have hidentity : ∀ firing : Firing σ, firing.Ready types bindings →
      firing.surroundings.identity (.named (.text var)) = .ok (.int fact.id) := by
    intro firing hready
    have hbound : firing.surroundings.bound (.text var) = .ok fact :=
      lookUp_text (by rw [Firing.surroundings, hready.sees, hlookup])
    rw [Surroundings.identity, hbound]
    rfl
  refine meets_see ?_ ?_
  . intro firing hready ref href
    rw [hidentity firing hready] at href
    exact ⟨fact, List.mem_map.mpr ⟨_, hmem, rfl⟩, htype, (Except.ok.inj href).symm⟩
  . intro firing hready
    exact .of_ok ⟨_, hidentity firing hready⟩

omit hdistinct hfit in
theorem meets_resolve {I : Firing σ → Prop} {P : Fault → Prop} {operand : Operand}
    (h : ∃ x, operand = .literal x) : Meets I (fun _ => True) P (resolve operand) := by
  obtain ⟨x, rfl⟩ := h
  exact meets_pure trivial

omit hdistinct hfit in
theorem meets_mutation {α : Type} {P : Fault → Prop} {f : Store σ → Store σ × Except Fault α}
    (mutation : Mutation) (hedge : ¬ mutation.IsEdge)
    (hf : ∀ store, (f store).1 = (store.apply mutation).1)
    (hfaults : ∀ firing : Firing σ, firing.Ready types bindings → FailsWith P (f firing.store).2) :
    Meets (Firing.Ready types bindings) (fun _ => True) P (change f) := by
  refine meets_change ?_ (fun _ _ _ _ => trivial) hfaults
  intro firing hready
  rw [hf]
  exact hready.apply hedge

include hnames in
theorem inScope_modify {var type field : String} (hvar : (var, type) ∈ bound)
    (hfield : Declarations.hasField types type field = true) (x : Value) :
    InScope (σ := σ) types bindings (modify (.named (.text var)) [(field, x)]) := by
  refine meets_bind (meets_see (fun _ _ _ _ => trivial) fun _ _ => Fields.requireFree_failsWith _ _ _)
    fun _ (_ : True) => ?_
  refine meets_bind (meets_identity hdistinct hfit hvar) ?_
  rintro ref ⟨fact, hfact, rfl, rfl⟩
  refine meets_bind ?_ fun _ (_ : True) => meets_pure trivial
  refine meets_mutation (.modify (.int fact.id) [(field, x)]) id (fun store => ?_) ?_
  . rw [Store.apply, Store.fst_settle]
  . intro firing hready
    apply Store.modify_failsWith hready.deferred hnames hready.declared hready.tidy
    rintro previous hprevious change hchange
    obtain rfl := List.mem_singleton.mp hchange
    have hid : fact.id = previous.id := Option.some.inj (FactTable.integer?_of_get hprevious)
    obtain ⟨-, htype⟩ := hready.issued fact hfact
    rwa [htype previous (FactTable.mem_of_get hprevious) hid.symm]

theorem inScope_retract {var type : String} (hvar : (var, type) ∈ bound) :
    InScope (σ := σ) types bindings (retract (.named (.text var))) := by
  refine meets_bind (meets_identity hdistinct hfit hvar) ?_
  rintro ref ⟨fact, -, -, rfl⟩
  refine meets_bind ?_ fun _ (_ : True) => meets_pure trivial
  refine meets_mutation (.retract (.int fact.id)) id (fun store => ?_) ?_
  . rw [Store.apply, Store.fst_settle]
  . intro firing hready
    exact Store.retract_failsWith hready.deferred _

include hnames in
theorem inScope_append {var type field : String} (hvar : (var, type) ∈ bound)
    (hfield : Declarations.hasField types type field = true) {operand : Operand}
    (hliteral : ∃ x, operand = .literal x) (unique : Bool) :
    InScope (σ := σ) types bindings (append var field operand unique) := by
  refine meets_bind (meets_resolve hliteral) fun x _ => ?_
  have hcurrent : InScope (σ := σ) types bindings (current (.named (.text var))) :=
    meets_bind (meets_identity hdistinct hfit hvar) fun _ _ =>
      meets_see (fun _ _ _ _ => trivial) fun _ _ => FactTable.get_failsWith _ _
  refine meets_bind hcurrent fun fact _ => ?_
  have hput (items : List Value) : InScope (σ := σ) types bindings
      (if (unique && x.isIn items) = true then pure () else
        modify (.named (.text var)) [(field, .list (items ++ [x]))] >>= fun _ => pure ()) := by
    split
    . exact meets_pure trivial
    . exact meets_bind (inScope_modify hnames hdistinct hfit hvar hfield _) fun _ _ =>
        meets_pure trivial
  dsimp only
  split
  . split
    . exact hput _
    . exact meets_bind (R := fun _ => True) (meets_throw id) fun items _ => hput items
  . exact hput []

omit hdistinct hfit in
theorem meets_resolveAll {I : Firing σ → Prop} {P : Fault → Prop} {operands : List (String × Operand)}
    (hliteral : ∀ entry ∈ operands, ∃ x, entry.2 = .literal x) :
    Meets I (fun data => data.map (·.1) = operands.map (·.1)) P (resolveAll operands) := by
  induction operands with
  | nil => exact meets_pure rfl
  | cons first operands ih =>
    rw [List.forall_mem_cons] at hliteral
    refine meets_bind (meets_resolve hliteral.1) fun x _ => ?_
    refine meets_bind (ih hliteral.2) fun data hdata => ?_
    exact meets_pure (by rw [List.map_cons, List.map_cons, hdata])

omit hdistinct hfit in
include hnames in
theorem inScope_insert {type : String} {operands : List (String × Operand)} {declaration : FactType}
    (hdeclaration : Declarations.find types type = some declaration)
    (haccepts : ∀ entry ∈ operands, declaration.accepts (.text entry.1) = true) {data : Fields}
    (hdata : data.map (·.1) = operands.map (·.1)) :
    InScope (σ := σ) types bindings (insert (.text type) (.record data) []) := by
  have hfields : ∀ entry ∈ data, declaration.accepts (.text entry.1) = true := by
    intro entry hentry
    have hname : entry.1 ∈ operands.map (·.1) := hdata ▸ List.mem_map.mpr ⟨entry, hentry, rfl⟩
    obtain ⟨operand, hoperand, heq⟩ := List.mem_map.mp hname
    rw [← heq]
    exact haccepts operand hoperand
  have hchange : InScope (σ := σ) types bindings (change (·.insert (.text type) (.record data))) := by
    refine meets_mutation (.insert (.text type) (.record data)) id (fun store => ?_) ?_
    . rw [Store.apply, Store.fst_settle]
    . intro firing hready
      exact .of_ok (Store.insert_ok hready.deferred hnames hready.declared hdeclaration hfields)
  refine meets_bind (meets_see (fun _ _ _ _ => trivial) fun _ _ => Fields.requireFree_failsWith _ _ _)
    fun _ (_ : True) => ?_
  have hrest : InScope (σ := σ) types bindings (change (·.insert (.text type) (.record data))
      >>= fun id => pure (Answer.value (.int id))) :=
    meets_bind hchange fun _ _ => meets_pure trivial
  exact hrest

include hnames in
theorem inScope_part {p : ActionStep} (hscoped : p.Scoped types bound) (hliteral : p.Literal) :
    InScope (σ := σ) types bindings (part p) := by
  cases p with
  | set var field operand =>
    obtain ⟨type, hvar, hfield⟩ := hscoped
    exact meets_bind (meets_resolve hliteral) fun x _ =>
      meets_bind (inScope_modify hnames hdistinct hfit hvar hfield x) fun _ _ => meets_pure trivial
  | append var field operand unique =>
    obtain ⟨type, hvar, hfield⟩ := hscoped
    exact inScope_append hnames hdistinct hfit hvar hfield hliteral unique
  | insert type operands =>
    obtain ⟨declaration, hdeclaration, haccepts⟩ := hscoped
    exact meets_bind (meets_resolveAll hliteral) fun data hdata =>
      meets_bind (inScope_insert hnames hdeclaration haccepts hdata) fun _ _ => meets_pure trivial
  | retract var =>
    obtain ⟨type, hvar⟩ := hscoped
    exact meets_bind (inScope_retract hdistinct hfit hvar) fun _ _ => meets_pure trivial
  | explain | script => exact False.elim hliteral

include hnames in
theorem inScope_parts {ps : List ActionStep} (hscoped : ∀ p ∈ ps, p.Scoped types bound)
    (hliteral : ∀ p ∈ ps, p.Literal) : InScope (σ := σ) types bindings (parts ps) := by
  induction ps with
  | nil => exact meets_pure trivial
  | cons p ps ih =>
    rw [List.forall_mem_cons] at hscoped hliteral
    exact meets_bind (inScope_part hnames hdistinct hfit hscoped.1 hliteral.1) fun _ _ =>
      ih hscoped.2 hliteral.2

include hnames in
theorem ofRule_failsWith {rule : Rule} (hscoped : ∀ step ∈ rule.action, step.Scoped types bound)
    (hliteral : ∀ step ∈ rule.action, step.Literal) {firing : Firing σ}
    (hready : firing.Ready types bindings) :
    FailsWith (fun fault => fault.OutOfScope → ∃ template, rule.explanation = some template
      ∧ firing.format (.text template) = .error fault) (firing.perform (ofRule rule)).2 := by
  have hparts := inScope_parts (σ := σ) hnames hdistinct hfit hscoped hliteral
  unfold ofRule
  dsimp only
  split
  . next template htemplate =>
    split
    . rw [Firing.perform_bind, Firing.perform_see]
      cases hformat : firing.format (.text template) with
      | error cause =>
        rintro fault ⟨⟩ -
        exact ⟨template, htemplate, hformat⟩
      | ok text =>
        intro fault hfault hout
        have hexplained : ({ firing with
            explanations := firing.explanations ++ [.text text] } : Firing σ).Ready types bindings :=
          ⟨hready.deferred, hready.declared, hready.tidy, hready.sees, hready.issued⟩
        exact absurd hout (hparts.faults _ hexplained fault hfault)
    . exact fun fault hfault hout => absurd hout (hparts.faults _ hready fault hfault)
  . exact fun fault hfault hout => absurd hout (hparts.faults _ hready fault hfault)

end Literal

end Action

/-! ### The end of the block -/

namespace Store

section Flush

variable {ruleSet : RuleSet} {fired : List RefractionKey}
  (hscope : ∀ rule ∈ ruleSet.rules, Condition.Scoped [] rule.conditions)

include hscope

theorem exists_of_flush {others : List (Listener Network)} (hwatch : ∀ other ∈ others, other.Watches)
    {net : Network} {seen : List Fact} (hkept : net.Kept ruleSet fired seen) {changes : List Change}
    (hlegal : Change.Legal seen changes) {fault : Fault}
    (hfault : (flush (Network.listener :: others) net changes).2 = some fault)
    (hout : fault.OutOfScope) :
    ∃ listener ∈ others, ∃ change net, (listener change net).2 = some fault := by
  rcases fault_of_flush hwatch hfault with ⟨before, change, more, rfl, hnet⟩ |
    ⟨listener, hlistener, change, -, world, hraises⟩
  . rw [Change.legal_append] at hlegal
    have hfollowed := hkept.follow hlegal.1
    have hscoped : (Network.listener.follow net before).Scoped := by
      rw [Network.Scoped, hfollowed.same]
      exact hscope
    have habsent : fault.Absent := by cases fault <;> first | exact hout | trivial
    obtain ⟨fact, -, rfl, -⟩ := Network.onChange_failsWith hfollowed.sound hscoped
      (Change.admissible_subset hfollowed.known hlegal.2.1) fault hnet habsent
    exact False.elim hout
  . exact ⟨listener, hlistener, change, world, hraises⟩

theorem exists_of_leave {store : Store Network} (h : store.Attended ruleSet fired) {fault : Fault}
    (hfault : store.leave.2 = some fault) (hout : fault.OutOfScope) :
    ∃ listener ∈ store.listeners.tail, ∃ change net, (listener change net).2 = some fault := by
  obtain ⟨seen, hlegal, -, hkept⟩ := h.kept
  obtain ⟨others, hlisteners, hwatch⟩ := h.listeners
  unfold Store.leave at hfault
  split at hfault
  . rw [hlisteners] at hfault ⊢
    exact exists_of_flush hscope hwatch hkept hlegal hfault hout
  . cases hfault

end Flush

theorem listeners_apply (store : Store σ) (mutation : Mutation) :
    (store.apply mutation).1.listeners = store.listeners := by
  have hemit : ∀ (table : FactTable) (change : Change),
      (({ store with table } : Store σ).emit change).1.listeners = store.listeners := by
    intro table change
    unfold emit
    split <;> rfl
  rcases apply_eq mutation store with ⟨table, fault?, -, heq⟩ | ⟨table, change, -, heq⟩ | heq | heq <;>
    rw [heq]
  . exact hemit table change
  . rfl
  . unfold Store.leave
    split <;> rfl

end Store

namespace Session

variable {ruleSet : RuleSet}

/--
Outside its own explanation, the firing of a rule can name something that is not there only in listeners
behind the network.
-/
theorem performDeferred_failsWith {types : List FactType} (hnames : (types.map (·.name)).Nodup)
    (hscope : ∀ rule ∈ ruleSet.rules, Condition.Scoped [] rule.conditions)
    {fired : List RefractionKey} {firing : Firing} (hattended : firing.store.Attended ruleSet fired)
    (htyped : firing.store.Typed types) {rule : Rule} (hscoped : rule.Scoped types)
    (hfit : Bindings.Fit firing.store.world.working.facts rule.bound firing.bindings)
    (hliteral : ∀ step ∈ rule.action, step.Literal) {fault : Fault}
    (hfault : (performDeferred firing (.ofRule rule)).2 = some fault) (hout : fault.OutOfScope) :
    (∃ template, rule.explanation = some template
        ∧ firing.format (.text template) = .error fault)
      ∨ ∃ listener ∈ firing.store.listeners.tail, ∃ change net,
        (listener change net).2 = some fault := by
  have hperform := Action.ofRule_failsWith hnames hscoped.distinct hfit hscoped.steps hliteral
    (Firing.ready_enter htyped hfit)
  have hkeeps := (Action.keeps_ofRule (S := fun store => store.Attended ruleSet fired
      ∧ store.listeners = firing.store.listeners) (fun store mutation hstore =>
        ⟨hstore.1.apply mutation, (store.listeners_apply mutation).trans hstore.2⟩) rule).invariant
    { firing with store := firing.store.enter } ⟨hattended.enter, rfl⟩
  -- a fault while the changes are matched comes before one of the action itself
  rcases Option.or_eq_some_iff.mp hfault with hleave | ⟨-, haction⟩
  . right
    obtain ⟨listener, hlistener, hraises⟩ := Store.exists_of_leave hscope hkeeps.1 hleave hout
    rw [hkeeps.2] at hlistener
    exact ⟨listener, hlistener, hraises⟩
  . left
    apply hperform fault _ hout
    split at haction
    . cases haction
    . next heq =>
      cases haction
      exact heq

theorem bindings_of_firingOf {session : Session} {a : Activation} {firing : Firing}
    (h : session.firingOf a = .ok firing) : session.network.bindings a = .ok firing.bindings := by
  unfold firingOf at h
  simp only [doBind_eq_ok] at h
  obtain ⟨bindings, hbindings, values, -, heq⟩ := h
  rw [← Except.ok.inj heq]
  exact hbindings

section Scope

variable {spec : RuleSetSpec} (hcompile : spec.compile = .ok ruleSet) {fired : List Activation}
  {session : Session}

include hcompile

theorem History.scoped (h : History ruleSet fired session) :
    session.network.Sound ∧ session.network.Scoped := by
  have hwellFormed := wellFormed_of_compile hcompile
  obtain ⟨seen, hkept⟩ := (h.consistent hwellFormed).kept
  refine ⟨hkept.sound, ?_⟩
  rw [Network.Scoped, hkept.same]
  exact hwellFormed.scope

theorem memory_of_select (h : History ruleSet fired session) {next : Session} {a : Activation}
    (hselect : session.select = (next, some a)) :
    ∃ memory, next.network.memory? a.rule.name = some memory ∧ memory.rule = a.rule
      ∧ a.token ∈ Stage.complete memory.stages := by
  have hattended := (h.consistent (wellFormed_of_compile hcompile)).attended
  obtain ⟨hselected, -, -⟩ := attended_select hattended hselect
  obtain ⟨tokens, hmatched, htoken⟩ := hselected.matched
  obtain ⟨memory, hmemory, hrule, rfl⟩ := Network.exists_of_matched hmatched
  exact ⟨memory, hmemory, hrule, htoken⟩

theorem firingOf_select (h : History ruleSet fired session) {next : Session} {a : Activation}
    (hselect : session.select = (next, some a)) :
    FailsWith (fun fault => ¬ fault.Absent) (next.beginCycle.firingOf a)
      ∧ ∀ firing, next.beginCycle.firingOf a = .ok firing →
        Bindings.Fit next.network.working.facts a.rule.bound firing.bindings := by
  obtain ⟨memory, hmemory, hrule, htoken⟩ := memory_of_select hcompile h hselect
  obtain ⟨hsound, hscoped⟩ := (h.selected hselect).scoped hcompile
  obtain ⟨bindings, hbindings, hfit⟩ := Network.bindings_of_complete hsound hmemory hrule htoken
  constructor
  . refine .bind (.of_ok ⟨bindings, hbindings⟩) fun _ _ => .bind ?_ fun _ _ => .ok _
    exact Network.aggregateValues_failsWith hsound hscoped hmemory hrule htoken _
  . intro firing hfiring
    have hsame := (bindings_of_firingOf hfiring).symm.trans hbindings
    rw [Except.ok.inj hsame]
    exact hfit

/--
Compiled rules do not go wrong, whatever the session did before. Every token that reaches a condition binds
the variables that the condition reads, and the test of the condition looks up nothing that is not there.
While a change is matched, nothing is missing but a fact that is to go and that the network never got to
know. And when an action that changes facts by written values is executed, no variable that it names is
unbound, and no type or field undeclared: such a fault comes from the template that explains the rule, or
from a listener behind the network.
-/
theorem rules_stay_in_scope (h : History ruleSet fired session) :
    (∀ name memory, session.network.memory? name = some memory →
      ∀ (position : Nat) condition stage, memory.rule.conditions[position]? = some condition →
        memory.stages[position]? = some stage → ∀ token ∈ Stage.parents position memory.stages,
        (∃ bindings, session.network.working.bindings memory.rule.vars token = .ok bindings
          ∧ ∀ var ∈ condition.uses, bindings.Binds var)
        ∧ FailsWith (fun fault => ¬ fault.Absent)
          (stage.node.advance session.network.working memory.rule.vars token).outcome)
    ∧ (∀ change, change.Admissible session.network.working.facts →
      (session.network.onChange change).FailsWith fun fault => fault.Absent →
        ∃ fact ∈ change.takes, fault = .missingKey (.int fact.id)
          ∧ Unused fact.id session.network.working.facts)
    ∧ ∀ next a, session.select = (next, some a) → (∀ step ∈ a.rule.action, step.Literal) →
      FailsWith (fun fault => ¬ fault.Absent) (next.beginCycle.firingOf a)
      ∧ ∀ firing, next.beginCycle.firingOf a = .ok firing → ∀ fault,
        (performDeferred firing (.ofRule a.rule)).2 = some fault → fault.OutOfScope →
          (∃ template, a.rule.explanation = some template
            ∧ firing.format (.text template) = .error fault)
          ∨ ∃ listener ∈ session.store.listeners.tail, ∃ change net,
            (listener change net).2 = some fault := by
  have hwellFormed := wellFormed_of_compile hcompile
  obtain ⟨hnames, hrules⟩ := scoped_of_compile hcompile
  obtain ⟨hsound, hscoped⟩ := h.scoped hcompile
  refine ⟨?_, fun change hadmissible => Network.onChange_failsWith hsound hscoped hadmissible, ?_⟩
  . intro name memory hmemory position condition stage hcondition hstage token htoken
    rw [Stage.parents_eq_final] at htoken
    have hconfined := Network.Scoped.confined hsound hscoped name
    obtain ⟨hlive, -⟩ := Network.fits_parents hsound hmemory position token htoken
    obtain ⟨bindings, hbindings, hvars, -⟩ :=
      WorkingMemory.bindings_ok hsound.distinct hlive memory.rule.vars
    refine ⟨⟨bindings, hbindings, ?_⟩, ?_⟩
    . intro var hvar
      rw [Bindings.Binds, hvars]
      exact Network.uses_of_parent hsound hconfined hmemory hcondition htoken var hvar
    . exact (Network.decided_confined hsound hconfined hmemory hstage [] htoken).2
  . intro next a hselect hliteral
    obtain ⟨hfails, hfits⟩ := firingOf_select hcompile h hselect
    refine ⟨hfails, ?_⟩
    intro firing hfiring fault hfault hout
    have hconsistent := (h.consistent hwellFormed).select hselect
    have hstore : firing.store = next.beginCycle.store := store_of_firingOf hfiring
    have hattended : next.beginCycle.store.Attended ruleSet _ :=
      hconsistent.attended.apply .beginCycle
    have htyped : next.beginCycle.store.Typed ruleSet.factTypes :=
      ((h.selected hselect).typed hwellFormed).apply hconsistent.attended .beginCycle
    have hlisteners : session.store.listeners = firing.store.listeners := by
      obtain ⟨agenda, -, rfl⟩ := select_eq_some hselect
      rw [hstore]
      rfl
    rw [← hstore] at hattended htyped
    rw [hlisteners]
    refine performDeferred_failsWith hnames hwellFormed.scope hattended htyped
      (hrules a.rule (hconsistent.rules a List.mem_cons_self)) ?_ hliteral hfault hout
    rw [hstore]
    exact hfits firing hfiring

end Scope

theorem exists_observed {session : Session} {observe : Activation → Firing → β} {seen : β}
    (h : (session.select.2.bind fun a => (session.select.1.beginCycle.firingOf a).toOption.map (observe a))
      = some seen) :
    ∃ next a firing, session.select = (next, some a) ∧ next.beginCycle.firingOf a = .ok firing
      ∧ observe a firing = seen := by
  obtain ⟨a, ha, hobserved⟩ := Option.bind_eq_some_iff.mp h
  obtain ⟨firing, hfiring, hseen⟩ := exists_ok_of_toOption hobserved
  exact ⟨_, a, firing, Prod.ext rfl ha, hfiring, hseen⟩

/-! ### A session that bills orders -/

/-- Every order without a bill gets one, and its state is noted. -/
def billingSpec : RuleSetSpec where
  factTypes := [
    { name := "order", fields := some ["number", "state"] },
    { name := "bill", fields := some ["number"] }]
  rules := [{
    name := "bill"
    conditions := [
      .pattern { var := "o", factType := "order" },
      .negation { factType := "bill", correlations := [("number", "o.number")] }]
    actions := [
      { kind := .set, target := some "o", field := some "state", value := .literal (.text "billed") },
      { kind := .insert, factType := some "bill", data := [("number", .literal (.int 7))] }] }]

def billingRule : Rule where
  name := "bill"
  conditions := [
    .pattern { type := "order" } "o",
    .negation { type := "bill" } [⟨"number", ⟨"o", "number"⟩⟩]]
  action := [
    .set "o" "state" (.literal (.text "billed")),
    .insert "bill" [("number", .literal (.int 7))]]

def billingRuleSet (digest : String) : RuleSet where
  factTypes := [
    { name := "order", fields := some ["number", "state"] },
    { name := "bill", fields := some ["number"] }]
  rules := [billingRule]
  index := .build [billingRule]
  digest

theorem compile_billingSpec : billingSpec.compile = .ok (billingRuleSet billingSpec.digest) :=
  compile_eq_ok.mpr ⟨_, _, rfl, by cbv, rfl⟩

/-- The session with an order, before it has a bill. -/
def billingSession (digest : String) : Session where
  id := "s"
  ruleSet := billingRuleSet digest
  store := (({
    table := { declared := some (billingRuleSet digest).factTypes }
    listeners := [Network.listener]
    world := (Network.ofRuleSet (billingRuleSet digest)).1 } : Store Network).apply
      (.insert (.text "order") (.record [("number", .int 7)]))).1
  cycleLimit := .int 1000

theorem history_billingSession :
    History (billingRuleSet billingSpec.digest) [] (billingSession billingSpec.digest) :=
  (History.created (ofRuleSet_default (wellFormed_of_compile compile_billingSpec) "s")).mutated
    (.insert (.text "order") (.record [("number", .int 7)]))

/-- The negation finds its variable, and the order is billed with nothing missing. -/
theorem rules_stay_in_scope_billing :
    (∃ memory, (billingSession billingSpec.digest).network.memory? "bill" = some memory
      ∧ [1] ∈ Stage.parents 1 memory.stages
      ∧ ∃ bindings, (billingSession billingSpec.digest).network.working.bindings memory.rule.vars [1]
          = .ok bindings ∧ bindings.Binds "o")
    ∧ ∃ next a firing, (billingSession billingSpec.digest).select = (next, some a)
      ∧ a.rule = billingRule ∧ next.beginCycle.firingOf a = .ok firing
      ∧ ∀ fault, (performDeferred firing (.ofRule a.rule)).2 = some fault → ¬ fault.OutOfScope := by
  have hreaches : ((billingSession billingSpec.digest).network.memory? "bill").map (fun memory =>
      (memory.rule.conditions[1]?.map (·.uses), memory.stages[1]?.isSome,
        Stage.parents 1 memory.stages)) = some (some ["o"], true, [[1]]) := by
    decide +kernel
  have hfires : ((billingSession billingSpec.digest).select.2.bind fun a =>
      ((billingSession billingSpec.digest).select.1.beginCycle.firingOf a).toOption.map fun _ =>
        (billingSession billingSpec.digest).store.listeners.length) = some 1 := by
    decide +kernel
  obtain ⟨hscope, -, hscoped⟩ := rules_stay_in_scope compile_billingSpec history_billingSession
  constructor
  . obtain ⟨memory, hmemory, hparts⟩ := Option.map_eq_some_iff.mp hreaches
    simp only [Prod.mk.injEq] at hparts
    obtain ⟨huses, hstage, hparents⟩ := hparts
    obtain ⟨condition, hcondition, huses⟩ := Option.map_eq_some_iff.mp huses
    obtain ⟨stage, hstage⟩ := Option.isSome_iff_exists.mp hstage
    have htoken : [1] ∈ Stage.parents 1 memory.stages := by simp [hparents]
    obtain ⟨⟨bindings, hbindings, hbinds⟩, -⟩ :=
      hscope "bill" memory hmemory 1 condition stage hcondition hstage [1] htoken
    exact ⟨memory, hmemory, htoken, bindings, hbindings, hbinds "o" (by simp [huses])⟩
  . obtain ⟨next, a, firing, hselect, hfiring, hlisteners⟩ := exists_observed hfires
    have hrule : a.rule = billingRule := List.mem_singleton.mp
      (history_billingSession.rule_of_select (wellFormed_of_compile compile_billingSpec) hselect)
    have hliteral : ∀ step ∈ a.rule.action, step.Literal := by
      simp [hrule, billingRule, ActionStep.Literal]
    obtain ⟨-, hfaults⟩ := hscoped next a hselect hliteral
    refine ⟨next, a, firing, hselect, hrule, hfiring, ?_⟩
    intro fault hfault hout
    rcases hfaults firing hfiring fault hfault hout with ⟨template, htemplate, -⟩ | ⟨listener, hlistener, -⟩
    . simp [hrule, billingRule] at htemplate
    . have htail : (billingSession billingSpec.digest).store.listeners.tail = [] :=
        List.eq_nil_of_length_eq_zero (by rw [List.length_tail, hlisteners])
      rw [htail] at hlistener
      cases hlistener

end Session
end ForwardChaining
