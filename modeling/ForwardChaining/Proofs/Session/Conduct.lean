import ForwardChaining.Proofs.Session.Action
import ForwardChaining.Proofs.Store.Mutation

/-!
This module contains what an action leads to, put together from what its parts lead to: an invariant of the
firing, a property of the result, and the faults that can come instead. All that an action does to a store
are operations on facts, so whatever these preserve, the action preserves.
-/

namespace ForwardChaining

variable {σ : Type}

namespace Action

/--
From a firing with the invariant, the action leads to one that has it too, and to such a result or to such a
fault.
-/
structure Meets (I : Firing σ → Prop) (Q : α → Prop) (P : Fault → Prop) (a : Action σ α) : Prop where
  invariant : ∀ firing, I firing → I (firing.perform a).1
  result : ∀ firing, I firing → ∀ x, (firing.perform a).2 = .ok x → Q x
  faults : ∀ firing, I firing → FailsWith P (firing.perform a).2

section Meets

variable {I : Firing σ → Prop} {P : Fault → Prop}

theorem meets_pure {Q : α → Prop} {x : α} (h : Q x) : Meets I Q P (pure x) := by
  refine ⟨fun _ hI => hI, ?_, fun _ _ => .ok x⟩
  rintro firing - _ ⟨⟩
  exact h

theorem meets_throw {Q : α → Prop} {fault : Fault} (h : P fault) : Meets I Q P (throw fault) :=
  ⟨fun _ hI => hI, fun _ _ _ => nofun, fun _ _ => .error h⟩

theorem meets_bind {R : α → Prop} {Q : β → Prop} {a : Action σ α} {f : α → Action σ β}
    (ha : Meets I R P a) (hf : ∀ x, R x → Meets I Q P (f x)) : Meets I Q P (a >>= f) := by
  have hcases : ∀ firing, I firing →
      (∃ fault, P fault ∧ firing.perform (a >>= f) = ((firing.perform a).1, .error fault))
        ∨ ∃ x, R x ∧ firing.perform (a >>= f) = (firing.perform a).1.perform (f x) := by
    intro firing hI
    have hresult := ha.result firing hI
    have hfaults := ha.faults firing hI
    rw [Firing.perform_bind]
    cases hperform : firing.perform a with
    | mk next result =>
      rw [hperform] at hresult hfaults
      cases result with
      | ok x => exact .inr ⟨x, hresult x rfl, rfl⟩
      | error fault => exact .inl ⟨fault, hfaults fault rfl, rfl⟩
  refine ⟨?_, ?_, ?_⟩ <;> intro firing hI <;>
    obtain ⟨fault, hfault, heq⟩ | ⟨x, hx, heq⟩ := hcases firing hI <;> rw [heq]
  . exact ha.invariant firing hI
  . exact (hf x hx).invariant _ (ha.invariant firing hI)
  . exact nofun
  . exact (hf x hx).result _ (ha.invariant firing hI)
  . exact .error hfault
  . exact (hf x hx).faults _ (ha.invariant firing hI)

theorem meets_catch {Q : α → Prop} {P' : Fault → Prop} {a : Action σ α} {f : Fault → Action σ α}
    (ha : Meets I Q P' a) (hf : ∀ fault, P' fault → Meets I Q P (f fault)) :
    Meets I Q P (tryCatch a f) := by
  have hcases : ∀ firing, I firing →
      (∃ x, Q x ∧ firing.perform (tryCatch a f) = ((firing.perform a).1, .ok x))
        ∨ ∃ fault, P' fault
          ∧ firing.perform (tryCatch a f) = (firing.perform a).1.perform (f fault) := by
    intro firing hI
    have hresult := ha.result firing hI
    have hfaults := ha.faults firing hI
    rw [Firing.perform_catch]
    cases hperform : firing.perform a with
    | mk next result =>
      rw [hperform] at hresult hfaults
      cases result with
      | ok x => exact .inl ⟨x, hresult x rfl, rfl⟩
      | error fault => exact .inr ⟨fault, hfaults fault rfl, rfl⟩
  refine ⟨?_, ?_, ?_⟩ <;> intro firing hI <;>
    obtain ⟨x, hx, heq⟩ | ⟨fault, hfault, heq⟩ := hcases firing hI <;> rw [heq]
  . exact ha.invariant firing hI
  . exact (hf fault hfault).invariant _ (ha.invariant firing hI)
  . rintro _ ⟨⟩
    exact hx
  . exact (hf fault hfault).result _ (ha.invariant firing hI)
  . exact .ok x
  . exact (hf fault hfault).faults _ (ha.invariant firing hI)

theorem meets_see {Q : α → Prop} {f : Firing σ → Except Fault α}
    (hresult : ∀ firing, I firing → ∀ x, f firing = .ok x → Q x)
    (hfaults : ∀ firing, I firing → FailsWith P (f firing)) : Meets I Q P (see f) := by
  refine ⟨?_, ?_, ?_⟩ <;> intro firing hI <;> rw [Firing.perform_see]
  . exact hI
  . exact hresult firing hI
  . exact hfaults firing hI

theorem meets_change {Q : α → Prop} {f : Store σ → Store σ × Except Fault α}
    (hinvariant : ∀ firing, I firing → I { firing with store := (f firing.store).1 })
    (hresult : ∀ firing, I firing → ∀ x, (f firing.store).2 = .ok x → Q x)
    (hfaults : ∀ firing, I firing → FailsWith P (f firing.store).2) :
    Meets I Q P (change f) := by
  refine ⟨?_, ?_, ?_⟩ <;> intro firing hI <;> rw [Firing.perform_change]
  . exact hinvariant firing hI
  . exact hresult firing hI
  . exact hfaults firing hI

end Meets

/-! ### Operations on facts -/

/-- The action preserves the invariant of the firing. -/
def Preserves (I : Firing σ → Prop) (a : Action σ α) : Prop :=
  Meets I (fun _ => True) (fun _ => True) a

/-- The action preserves what holds of the store. -/
def Keeps (S : Store σ → Prop) (a : Action σ α) : Prop :=
  Meets (fun firing => S firing.store) (fun _ => True) (fun _ => True) a

/-- The invariant survives the allowed operations on facts, and no reason and no computation breaks it. -/
structure Lasting (allowed : Mutation → Prop) (I : Firing σ → Prop) : Prop where
  operation : ∀ firing mutation, allowed mutation → I firing →
    I { firing with store := (firing.store.apply mutation).1 }
  reason : ∀ firing reason, I firing →
    I { firing with explanations := firing.explanations ++ [reason] }
  computation : ∀ firing, I firing → I { firing with serial := firing.serial + 1 }

theorem lasting_store {allowed : Mutation → Prop} {S : Store σ → Prop}
    (hS : ∀ store mutation, allowed mutation → S store → S (store.apply mutation).1) :
    Lasting allowed fun firing => S firing.store :=
  ⟨fun firing mutation => hS firing.store mutation, fun _ _ => id, fun _ => id⟩

section Preserves

variable {I : Firing σ → Prop}

theorem preserves_pure (x : α) : Preserves I (pure x) :=
  meets_pure trivial

theorem preserves_throw (fault : Fault) : Preserves I (throw fault : Action σ α) :=
  meets_throw trivial

theorem preserves_bind {a : Action σ α} {f : α → Action σ β} (ha : Preserves I a)
    (hf : ∀ x, Preserves I (f x)) : Preserves I (a >>= f) :=
  meets_bind ha fun x _ => hf x

theorem preserves_see (f : Firing σ → Except Fault α) : Preserves I (see f) :=
  meets_see (fun _ _ _ _ => trivial) fun _ _ _ _ => trivial

variable {allowed : Mutation → Prop} (hI : Lasting allowed I)

include hI

theorem preserves_explain (reason : Value) : Preserves I (explain reason) :=
  ⟨fun firing => hI.reason firing reason, fun _ _ _ _ => trivial, fun _ _ _ _ => trivial⟩

theorem preserves_evaluate (e : Expr) : Preserves I (evaluate e) := by
  refine ⟨?_, fun _ _ _ _ => trivial, fun _ _ _ _ => trivial⟩
  intro firing h
  rw [Firing.perform_evaluate]
  exact hI.computation firing h

theorem preserves_resolve (operand : Operand) : Preserves I (resolve operand) := by
  cases operand with
  | literal x => exact preserves_pure x
  | computed _ e => exact preserves_evaluate hI e

theorem preserves_operation (mutation : Mutation) (hallowed : allowed mutation)
    {f : Store σ → Store σ × Except Fault α}
    (h : ∀ store, (store.apply mutation).1 = (f store).1) : Preserves I (change f) :=
  meets_change (fun firing hfiring => h firing.store ▸ hI.operation firing mutation hallowed hfiring)
    (fun _ _ _ _ => trivial) fun _ _ _ _ => trivial

theorem preserves_retract (hallowed : ∀ ref, allowed (.retract ref)) (target : Target) :
    Preserves I (retract target) := by
  refine preserves_bind (preserves_see _) fun ref => ?_
  exact preserves_bind (preserves_operation hI (.retract ref) (hallowed ref) fun _ => Store.fst_settle _)
    fun _ => preserves_pure _

section Modify

variable (hallowed : ∀ ref changes, allowed (.modify ref changes))

include hallowed

theorem preserves_modify (target : Target) (changes : Fields) :
    Preserves I (modify target changes) := by
  refine preserves_bind (preserves_see _) fun _ => preserves_bind (preserves_see _) fun ref => ?_
  exact preserves_bind (preserves_operation hI (.modify ref changes) (hallowed ref changes)
    fun _ => Store.fst_settle _) fun _ => preserves_pure _

theorem preserves_set (var field : String) (operand : Operand) :
    Preserves I (part (.set var field operand)) :=
  preserves_bind (preserves_resolve hI operand) fun _ =>
    preserves_bind (preserves_modify hI hallowed _ _) fun _ => preserves_pure _

theorem preserves_append (var field : String) (operand : Operand) (unique : Bool) :
    Preserves I (append var field operand unique) := by
  refine preserves_bind (preserves_resolve hI operand) fun x => ?_
  refine preserves_bind (preserves_bind (preserves_see _) fun _ => preserves_see _) fun fact => ?_
  have hput (items : List Value) : Preserves I (if (unique && x.isIn items) = true then pure () else
      modify (.named (.text var)) [(field, .list (items ++ [x]))] >>= fun _ => pure ()) := by
    split
    . exact preserves_pure ()
    . exact preserves_bind (preserves_modify hI hallowed _ _) fun _ => preserves_pure _
  dsimp only
  split
  . split
    . exact hput _
    . exact preserves_bind (preserves_throw _) fun items => hput items
  . exact hput []

end Modify

theorem preserves_ofParts {rule : Rule} (hparts : ∀ p ∈ rule.action, Preserves I (part p)) :
    Preserves I (ofRule rule) := by
  have haction : Preserves I (parts rule.action) := by
    generalize rule.action = ps at hparts
    induction ps with
    | nil => exact preserves_pure ()
    | cons p ps ih =>
      rw [List.forall_mem_cons] at hparts
      exact preserves_bind hparts.1 fun _ => ih hparts.2
  unfold ofRule
  dsimp only
  split
  . split
    . exact preserves_bind (preserves_see _) fun _ =>
        preserves_bind (preserves_explain hI _) fun _ => haction
    . exact haction
  . exact haction

end Preserves

section Operations

variable {I : Firing σ → Prop} (hI : Lasting (¬ ·.IsEdge) I)

include hI

theorem preserves_insert (tag data : Value) (fields : Fields) :
    Preserves I (insert tag data fields) := by
  refine preserves_bind (preserves_see _) fun _ => ?_
  have hrest (data : Fields) : Preserves I (change (·.insert tag (.record (Fields.merge data fields)))
      >>= fun id => pure (Answer.value (.int id))) := by
    exact preserves_bind (preserves_operation hI (.insert tag (.record (Fields.merge data fields))) id
      fun _ => Store.fst_settle _) fun _ => preserves_pure _
  dsimp only
  split
  . exact hrest _
  . split
    . exact preserves_bind (preserves_throw _) fun data => hrest data
    . exact hrest []

theorem preserves_step (s : Step) : Preserves I (step s) := by
  induction s with
  | insert type data => exact preserves_insert hI type data []
  | insertWith type data fields => exact preserves_insert hI type data fields
  | update target data =>
    refine preserves_bind (preserves_see _) fun ref => ?_
    exact preserves_bind (preserves_operation hI (.update ref data) id
      fun _ => Store.fst_settle _) fun _ => preserves_pure _
  | modify target changes => exact preserves_modify hI (fun _ _ => id) target changes
  | retract target => exact preserves_retract hI (fun _ => id) target
  | current target =>
    exact preserves_bind (preserves_bind (preserves_see _) fun _ => preserves_see _)
      fun _ => preserves_pure _
  | get | scan | format | fact | value | explanation =>
    exact preserves_bind (preserves_see _) fun _ => preserves_pure _
  | explain reason => exact preserves_bind (preserves_explain hI reason) fun _ => preserves_pure _
  | facts => exact ⟨fun _ => id, fun _ _ _ _ => trivial, fun _ _ _ _ => trivial⟩
  | eval e => exact preserves_bind (preserves_evaluate hI e) fun _ => preserves_pure _
  | fail kind message => exact preserves_throw _
  | write var field value => exact preserves_bind (preserves_see _) fun _ => preserves_throw _
  | note inner ih =>
    refine preserves_bind ih fun answer => ?_
    dsimp only
    split
    . exact preserves_bind (preserves_throw _) fun _ =>
        preserves_bind (preserves_explain hI _) fun _ => preserves_pure _
    . exact preserves_bind (preserves_explain hI _) fun _ => preserves_pure _
  | attempt inner ih =>
    refine preserves_bind (meets_catch (preserves_bind ih fun _ => preserves_pure _) fun fault _ => ?_)
      fun _ => preserves_pure _
    exact preserves_explain hI _

theorem preserves_part (p : ActionStep) : Preserves I (part p) := by
  cases p with
  | set var field operand => exact preserves_set hI (fun _ _ => id) var field operand
  | append var field operand unique => exact preserves_append hI (fun _ _ => id) var field operand unique
  | insert type operands =>
    refine preserves_bind ?_ fun data => preserves_bind (preserves_insert hI _ _ _) fun _ =>
      preserves_pure _
    induction operands with
    | nil => exact preserves_pure []
    | cons first operands ih =>
      exact preserves_bind (preserves_resolve hI first.2) fun x =>
        preserves_bind ih fun _ => preserves_pure _
  | retract var =>
    exact preserves_bind (preserves_retract hI (fun _ => id) _) fun _ => preserves_pure _
  | explain template => exact preserves_bind (preserves_see _) fun _ => preserves_explain hI _
  | script ss =>
    unfold part
    induction ss with
    | nil => exact preserves_pure ()
    | cons s ss ih => exact preserves_bind (preserves_step hI s) fun _ => ih

theorem preserves_ofRule (rule : Rule) : Preserves I (ofRule rule) :=
  preserves_ofParts hI fun p _ => preserves_part hI p

end Operations

theorem keeps_ofRule {S : Store σ → Prop}
    (hS : ∀ store mutation, S store → S (store.apply mutation).1) (rule : Rule) :
    Keeps S (ofRule rule) :=
  preserves_ofRule (lasting_store fun store mutation _ => hS store mutation) rule

end Action

namespace Session

theorem keeps_performDeferred {S : Store σ → Prop}
    (hS : ∀ store mutation, S store → S (store.apply mutation).1) {firing : Firing σ}
    (h : S firing.store) (rule : Rule) : S (performDeferred firing (.ofRule rule)).1.store := by
  have henter : S firing.store.enter := hS _ .enter h
  have hperform := (Action.keeps_ofRule hS rule).invariant
    { firing with store := firing.store.enter } henter
  exact hS _ .leave hperform

end Session
end ForwardChaining
