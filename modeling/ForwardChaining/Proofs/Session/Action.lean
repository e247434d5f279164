import ForwardChaining.Proofs.Rule.Timeless
import ForwardChaining.Proofs.Store.Log
import ForwardChaining.Session.Basic

/-!
This module contains that an action depends on nothing of a store but its table and what the operations on
facts give back. So an action does the same in stores that do the same, and what all operations on facts
preserve, an action preserves.
-/

namespace ForwardChaining

variable {σ τ : Type}

/-- The operations on facts give the same in both stores, and keep them related. -/
structure Store.Parallel (R : Store σ → Store τ → Prop) : Prop where
  table : ∀ {a b}, R a b → b.table = a.table
  operates : ∀ {a b} {α : Type} {f : {σ : Type} → Store σ → Store σ × Except Fault α}, R a b →
    Store.Operates a.table f → (f b).2 = (f a).2 ∧ R (f a).1 (f b).1

/-- The reasons that a step gives as they are written satisfy `P`; what it gives otherwise are texts. -/
def Step.Says (P : Value → Prop) : Step → Prop
  | .explain reason => P reason
  | .note s => s.Says P
  | .attempt s => s.Says P
  | _ => True

/-- The reasons that are written in the action of a rule satisfy `P`. -/
def Rule.Says (P : Value → Prop) (rule : Rule) : Prop :=
  ∀ ss, .script ss ∈ rule.action → ∀ s ∈ ss, s.Says P

theorem Step.says_true (s : Step) : s.Says fun _ => True := by
  induction s with
  | note s ih => exact ih
  | attempt s ih => exact ih
  | _ => trivial

theorem Rule.says_true (rule : Rule) : rule.Says fun _ => True :=
  fun _ _ s _ => s.says_true

/--
The firings differ in their stores only, which are related, and all their reasons satisfy `P`. Unless they
are timed, they may be of different cycles.
-/
structure Firing.Alike (R : Store σ → Store τ → Prop) (P : Value → Prop) (timed : Prop) (a : Firing σ)
    (b : Firing τ) : Prop where
  store : R a.store b.store
  rule : b.rule = a.rule
  bindings : b.bindings = a.bindings
  values : b.values = a.values
  cycle : timed → b.cycle = a.cycle
  explanations : b.explanations = a.explanations
  reasons : ∀ reason ∈ a.explanations, P reason
  serial : b.serial = a.serial

/-! ### Execution -/

namespace Firing

theorem perform_bind (firing : Firing σ) (a : Action σ α) (f : α → Action σ β) :
    firing.perform (a >>= f) = match firing.perform a with
      | (firing, .ok x) => firing.perform (f x)
      | (firing, .error fault) => (firing, .error fault) := by
  unfold perform ExceptT.run StateT.run
  simp only [bind, ExceptT.bind, ExceptT.mk, StateT.bind, ExceptT.bindCont]
  cases a firing with
  | mk result next => cases result <;> rfl

theorem perform_catch (firing : Firing σ) (a : Action σ α) (f : Fault → Action σ α) :
    firing.perform (tryCatch a f) = match firing.perform a with
      | (firing, .ok x) => (firing, .ok x)
      | (firing, .error fault) => firing.perform (f fault) := by
  unfold perform ExceptT.run StateT.run
  simp only [tryCatch, tryCatchThe, MonadExceptOf.tryCatch, ExceptT.tryCatch, ExceptT.mk, bind,
    StateT.bind]
  cases a firing with
  | mk result next => cases result <;> rfl

theorem perform_change (firing : Firing σ) (f : Store σ → Store σ × Except Fault α) :
    firing.perform (Action.change f)
      = ({ firing with store := (f firing.store).1 }, (f firing.store).2) := by
  have hchange : firing.perform (Action.change f) = ({ firing with store := (f firing.store).1 } :
      Firing σ).perform (Action.change.liftExcept (f firing.store).2) := rfl
  rw [hchange]
  cases (f firing.store).2 <;> rfl

theorem perform_see (firing : Firing σ) (f : Firing σ → Except Fault α) :
    firing.perform (Action.see f) = (firing, f firing) := by
  have hget : firing.perform get = (firing, .ok firing) := rfl
  unfold Action.see
  rw [perform_bind, hget]
  dsimp only
  cases f firing <;> rfl

theorem perform_evaluate (firing : Firing σ) (e : Expr) :
    firing.perform (Action.evaluate e) = ({ firing with serial := firing.serial + 1 },
      e.eval { surroundings := some firing.surroundings, serial := firing.serial }) := by
  have hevaluate : firing.perform (Action.evaluate e)
      = ({ firing with serial := firing.serial + 1 } : Firing σ).perform (Action.see fun next =>
        e.eval { surroundings := some next.surroundings, serial := firing.serial }) := rfl
  rw [hevaluate, perform_see]
  rfl

end Firing

namespace Action

variable {R : Store σ → Store τ → Prop} {P : Value → Prop} {timed : Prop}

/-- The actions give the same in firings that differ in related stores, and keep these related. -/
def Agree (R : Store σ → Store τ → Prop) (P : Value → Prop) (timed : Prop) (a : Action σ α)
    (b : Action τ α) : Prop :=
  ∀ f g, Firing.Alike R P timed f g →
    (g.perform b).2 = (f.perform a).2 ∧ (f.perform a).1.Alike R P timed (g.perform b).1

theorem agree_pure (x : α) : Agree R P timed (pure x) (pure x) :=
  fun _ _ h => ⟨rfl, h⟩

theorem agree_throw (fault : Fault) : Agree R P timed (throw fault : Action σ α) (throw fault) :=
  fun _ _ h => ⟨rfl, h⟩

theorem agree_bind {a : Action σ α} {b : Action τ α} {f : α → Action σ β} {g : α → Action τ β}
    (h : Agree R P timed a b) (hrest : ∀ x, Agree R P timed (f x) (g x)) :
    Agree R P timed (a >>= f) (b >>= g) := by
  intro left right halike
  obtain ⟨hresult, hnext⟩ := h left right halike
  rw [Firing.perform_bind, Firing.perform_bind]
  cases hleft : left.perform a with
  | mk left' result =>
    cases hright : right.perform b with
    | mk right' result' =>
      rw [hleft, hright] at hresult hnext
      simp only at hresult hnext
      subst hresult
      cases result' with
      | ok x => exact hrest x left' right' hnext
      | error fault => exact ⟨rfl, hnext⟩

theorem agree_catch {a : Action σ α} {b : Action τ α} {f : Fault → Action σ α}
    {g : Fault → Action τ α} (h : Agree R P timed a b)
    (hrest : ∀ fault, Agree R P timed (f fault) (g fault)) :
    Agree R P timed (tryCatch a f) (tryCatch b g) := by
  intro left right halike
  obtain ⟨hresult, hnext⟩ := h left right halike
  rw [Firing.perform_catch, Firing.perform_catch]
  cases hleft : left.perform a with
  | mk left' result =>
    cases hright : right.perform b with
    | mk right' result' =>
      rw [hleft, hright] at hresult hnext
      simp only at hresult hnext
      subst hresult
      cases result' with
      | ok x => exact ⟨rfl, hnext⟩
      | error fault => exact hrest fault left' right' hnext

theorem agree_change {f : Store σ → Store σ × Except Fault α}
    {g : Store τ → Store τ × Except Fault α}
    (h : ∀ a b, R a b → (g b).2 = (f a).2 ∧ R (f a).1 (g b).1) :
    Agree R P timed (change f) (change g) := by
  intro left right halike
  obtain ⟨hresult, hstore⟩ := h _ _ halike.store
  rw [Firing.perform_change, Firing.perform_change]
  exact ⟨hresult, hstore, halike.rule, halike.bindings, halike.values, halike.cycle,
    halike.explanations, halike.reasons, halike.serial⟩

theorem agree_see {f : Firing σ → Except Fault α} {g : Firing τ → Except Fault α}
    (h : ∀ a b, Firing.Alike R P timed a b → g b = f a) : Agree R P timed (see f) (see g) := by
  intro left right halike
  rw [Firing.perform_see, Firing.perform_see]
  exact ⟨h left right halike, halike⟩

theorem agree_explain {reason : Value} (hreason : P reason) :
    Agree R P timed (explain reason) (explain reason) := by
  intro left right halike
  refine ⟨rfl, halike.store, halike.rule, halike.bindings, halike.values, halike.cycle, ?_, ?_,
    halike.serial⟩
  . change right.explanations ++ [reason] = left.explanations ++ [reason]
    rw [halike.explanations]
  . change ∀ other ∈ left.explanations ++ [reason], P other
    rw [List.forall_mem_append, List.forall_mem_singleton]
    exact ⟨halike.reasons, hreason⟩

theorem agree_facts : Agree R P timed (do return Answer.bound (← get).bindings)
    (do return Answer.bound (← get).bindings) := by
  intro left right halike
  refine ⟨?_, halike⟩
  change Except.ok (Answer.bound right.bindings) = Except.ok (Answer.bound left.bindings)
  rw [halike.bindings]

theorem format_alike {a : Firing σ} {b : Firing τ} (h : Firing.Alike R P timed a b)
    (template : Value) : b.format template = a.format template := by
  unfold Firing.format Firing.subjects
  rw [h.values, h.bindings]

theorem explanation_alike {a : Firing σ} {b : Firing τ} (h : Firing.Alike R P timed a b) :
    b.explanation = a.explanation := by
  rw [Firing.explanation, h.explanations, Firing.explanation]

section Steps

variable (hR : Store.Parallel R)

include hR

theorem surroundings_alike {a : Firing σ} {b : Firing τ} (h : Firing.Alike R P timed a b) :
    b.surroundings = a.surroundings.at b.cycle := by
  unfold Firing.surroundings Surroundings.at
  rw [h.bindings, h.values, h.rule, hR.table h.store]

theorem agree_identity (target : Target) : Agree R P timed (identity target) (identity target) :=
  agree_see fun _ _ h => by rw [surroundings_alike hR h, Surroundings.identity_at]

theorem agree_evaluate {e : Expr} (htimes : timed ∨ e.Timeless) :
    Agree R P timed (evaluate e) (evaluate e) := by
  intro left right halike
  rw [Firing.perform_evaluate, Firing.perform_evaluate, surroundings_alike hR halike, halike.serial]
  refine ⟨?_, halike.store, halike.rule, halike.bindings, halike.values, halike.cycle,
    halike.explanations, halike.reasons, rfl⟩
  rcases htimes with htimed | htimeless
  . rw [halike.cycle htimed]
    rfl
  . exact Expr.eval_at { surroundings := some left.surroundings, serial := left.serial } _ e htimeless

theorem agree_resolve {operand : Operand} (htimes : timed ∨ operand.Timeless) :
    Agree R P timed (resolve operand) (resolve operand) := by
  cases operand with
  | literal x => exact agree_pure x
  | computed _ e => exact agree_evaluate hR htimes

theorem agree_insert (tag data : Value) (fields : Fields) :
    Agree R P timed (insert tag data fields) (insert tag data fields) := by
  unfold insert
  apply agree_bind (agree_see fun _ _ _ => rfl)
  intro _
  have hrest : ∀ data : Fields, Agree R P timed
      (change (·.insert tag (.record (Fields.merge data fields))) >>= fun id =>
        pure (Answer.value (.int id)))
      (change (·.insert tag (.record (Fields.merge data fields))) >>= fun id =>
        pure (Answer.value (.int id))) :=
    fun data => agree_bind
      (agree_change fun _ _ h => hR.operates h (Store.operates_insert _ tag _)) fun _ => agree_pure _
  dsimp only
  split
  . exact hrest _
  . split
    . exact agree_bind (agree_throw _) fun data => hrest data
    . exact hrest []

theorem agree_modify (target : Target) (changes : Fields) :
    Agree R P timed (modify target changes) (modify target changes) := by
  unfold modify
  apply agree_bind (agree_see fun _ _ _ => rfl)
  intro _
  apply agree_bind (agree_identity hR target)
  intro ref
  exact agree_bind (agree_change fun _ _ h => hR.operates h (Store.operates_modify _ ref changes))
    fun _ => agree_pure _

theorem agree_retract (target : Target) : Agree R P timed (retract target) (retract target) := by
  unfold retract
  apply agree_bind (agree_identity hR target)
  intro ref
  exact agree_bind (agree_change fun _ _ h => hR.operates h (Store.operates_retract _ ref))
    fun _ => agree_pure _

theorem agree_current (target : Target) : Agree R P timed (current target) (current target) := by
  unfold current
  apply agree_bind (agree_identity hR target)
  intro ref
  exact agree_see fun _ _ h => by rw [hR.table h.store]

theorem agree_resolveAll {operands : List (String × Operand)}
    (htimes : timed ∨ ∀ entry ∈ operands, entry.2.Timeless) :
    Agree R P timed (resolveAll operands) (resolveAll operands) := by
  induction operands with
  | nil => exact agree_pure []
  | cons first operands ih =>
    rw [List.forall_mem_cons] at htimes
    apply agree_bind (agree_resolve hR (htimes.imp_right And.left))
    intro x
    exact agree_bind (ih (htimes.imp_right And.right)) fun _ => agree_pure _

theorem agree_append (var field : String) {operand : Operand} (htimes : timed ∨ operand.Timeless)
    (unique : Bool) :
    Agree R P timed (append var field operand unique) (append var field operand unique) := by
  unfold append
  apply agree_bind (agree_resolve hR htimes)
  intro x
  apply agree_bind (agree_current hR _)
  intro fact
  have hput : ∀ items : List Value, Agree R P timed
      (if (unique && x.isIn items) = true then pure () else
        modify (.named (.text var)) [(field, .list (items ++ [x]))] >>= fun _ => pure ())
      (if (unique && x.isIn items) = true then pure () else
        modify (.named (.text var)) [(field, .list (items ++ [x]))] >>= fun _ => pure ()) := by
    intro items
    split
    . exact agree_pure ()
    . exact agree_bind (agree_modify hR _ _) fun _ => agree_pure _
  dsimp only
  split
  . split
    . exact hput _
    . exact agree_bind (agree_throw _) fun items => hput items
  . exact hput []

variable (hP : ∀ s, P (.text s))

include hP

theorem agree_step {s : Step} (hspoken : s.Says P) (htimes : timed ∨ s.Timeless) :
    Agree R P timed (step s) (step s) := by
  induction s with
  | insert type data => exact agree_insert hR type data []
  | insertWith type data fields => exact agree_insert hR type data fields
  | update target data =>
    apply agree_bind (agree_identity hR target)
    intro ref
    exact agree_bind (agree_change fun _ _ h => hR.operates h (Store.operates_update _ ref data))
      fun _ => agree_pure _
  | modify target changes => exact agree_modify hR target changes
  | retract target => exact agree_retract hR target
  | current target => exact agree_bind (agree_current hR target) fun _ => agree_pure _
  | get ref | scan type =>
    exact agree_bind (agree_see fun _ _ h => by rw [hR.table h.store]) fun _ => agree_pure _
  | explain reason => exact agree_bind (agree_explain hspoken) fun _ => agree_pure _
  | format template =>
    exact agree_bind (agree_see fun _ _ h => format_alike h template) fun _ => agree_pure _
  | fact var => exact agree_bind (agree_see fun _ _ h => by rw [h.bindings]) fun _ => agree_pure _
  | value name => exact agree_bind (agree_see fun _ _ h => by rw [h.values]) fun _ => agree_pure _
  | facts => exact agree_facts
  | explanation => exact agree_bind (agree_see fun _ _ h => explanation_alike h) fun _ => agree_pure _
  | eval e => exact agree_bind (agree_evaluate hR htimes) fun _ => agree_pure _
  | fail kind message => exact agree_throw _
  | write var field value =>
    apply agree_bind (agree_see fun _ _ h => by rw [h.bindings])
    intro _
    exact agree_throw _
  | note inner ih =>
    apply agree_bind (ih hspoken htimes)
    intro answer
    dsimp only
    split
    . exact agree_bind (agree_throw _) fun _ =>
        agree_bind (agree_explain (hP _)) fun _ => agree_pure _
    . exact agree_bind (agree_explain (hP _)) fun _ => agree_pure _
  | attempt inner ih =>
    apply agree_bind _ fun _ => agree_pure _
    exact agree_catch (agree_bind (ih hspoken htimes) fun _ => agree_pure _)
      fun fault => agree_explain (hP _)

theorem agree_steps {ss : List Step} (hspoken : ∀ s ∈ ss, s.Says P)
    (htimes : timed ∨ ∀ s ∈ ss, s.Timeless) : Agree R P timed (steps ss) (steps ss) := by
  induction ss with
  | nil => exact agree_pure ()
  | cons s ss ih =>
    rw [List.forall_mem_cons] at hspoken htimes
    exact agree_bind (agree_step hR hP hspoken.1 (htimes.imp_right And.left))
      fun _ => ih hspoken.2 (htimes.imp_right And.right)

theorem agree_part {p : ActionStep} (hspoken : ∀ ss, p = .script ss → ∀ s ∈ ss, s.Says P)
    (htimes : timed ∨ p.Timeless) : Agree R P timed (part p) (part p) := by
  cases p with
  | set var field operand =>
    apply agree_bind (agree_resolve hR htimes)
    intro x
    exact agree_bind (agree_modify hR _ _) fun _ => agree_pure _
  | append var field operand unique => exact agree_append hR var field htimes unique
  | insert type operands =>
    apply agree_bind (agree_resolveAll hR htimes)
    intro data
    exact agree_bind (agree_insert hR _ _ _) fun _ => agree_pure _
  | retract var => exact agree_bind (agree_retract hR _) fun _ => agree_pure _
  | explain template =>
    apply agree_bind (agree_see fun _ _ h => format_alike h _)
    intro text
    exact agree_explain (hP _)
  | script ss => exact agree_steps hR hP (hspoken ss rfl) htimes

theorem agree_parts {ps : List ActionStep} (hspoken : ∀ ss, .script ss ∈ ps → ∀ s ∈ ss, s.Says P)
    (htimes : timed ∨ ∀ p ∈ ps, p.Timeless) : Agree R P timed (parts ps) (parts ps) := by
  induction ps with
  | nil => exact agree_pure ()
  | cons p ps ih =>
    rw [List.forall_mem_cons] at htimes
    apply agree_bind (agree_part hR hP
      (fun ss heq => hspoken ss (by rw [heq]; exact List.mem_cons_self ..)) (htimes.imp_right And.left))
    exact fun _ => ih (fun ss hmem => hspoken ss (List.mem_cons_of_mem _ hmem))
      (htimes.imp_right And.right)

theorem agree_ofRule {rule : Rule} (hspoken : rule.Says P) (htimes : timed ∨ rule.Timeless) :
    Agree R P timed (ofRule rule) (ofRule rule) := by
  unfold ofRule
  dsimp only
  split
  . next template _ =>
    split
    . apply agree_bind (agree_see fun _ _ h => format_alike h _)
      intro text
      exact agree_bind (agree_explain (hP _)) fun _ => agree_parts hR hP hspoken htimes
    . exact agree_parts hR hP hspoken htimes
  . exact agree_parts hR hP hspoken htimes

end Steps

end Action

namespace Store

theorem Parallel.of_after {P : Store σ → Prop}
    (h : ∀ {store table' change?}, store.table.Follows table' change? → P store →
      P (store.after table' change?)) : Parallel fun a b : Store σ => b = a ∧ P a := by
  constructor
  . rintro a b ⟨heq, -⟩
    rw [heq]
  . rintro a b α f ⟨heq, ha⟩ hoperates
    obtain ⟨table', change?, hfollows, hafter⟩ := hoperates.fst
    have hstore : (f a).1 = a.after table' change? := hafter σ a rfl
    rw [heq]
    refine ⟨rfl, rfl, ?_⟩
    rw [hstore]
    exact h hfollows ha

end Store

theorem Firing.preserved_perform {P : Store σ → Prop}
    (h : ∀ {store table' change?}, store.table.Follows table' change? → P store →
      P (store.after table' change?)) (rule : Rule) {firing : Firing σ} (hstore : P firing.store) :
    P (firing.perform (Action.ofRule rule)).1.store := by
  have halike : Firing.Alike (fun a b : Store σ => b = a ∧ P a) (fun _ => True) True firing firing :=
    ⟨⟨rfl, hstore⟩, rfl, rfl, rfl, fun _ => rfl, rfl, fun _ _ => trivial, rfl⟩
  exact (Action.agree_ofRule (.of_after h) (fun _ => trivial) rule.says_true (.inl trivial) firing firing
    halike).2.store.2

theorem Firing.says_perform {P : Value → Prop} (hP : ∀ s, P (.text s)) {rule : Rule}
    (hspoken : rule.Says P) {firing : Firing σ} (hreasons : ∀ reason ∈ firing.explanations, P reason) :
    ∀ reason ∈ (firing.perform (Action.ofRule rule)).1.explanations, P reason := by
  have hanything : Store.Parallel fun a b : Store σ => b = a ∧ True := .of_after fun _ _ => trivial
  have halike : Firing.Alike (fun a b : Store σ => b = a ∧ True) P True firing firing :=
    ⟨⟨rfl, trivial⟩, rfl, rfl, rfl, fun _ => rfl, rfl, hreasons, rfl⟩
  exact (Action.agree_ofRule hanything hP hspoken (.inl trivial) firing firing halike).2.reasons

end ForwardChaining
