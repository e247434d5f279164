import ForwardChaining.Proofs.Session.Conduct
import ForwardChaining.Proofs.Session.History
import ForwardChaining.Proofs.Store.Filing

/-!
This module contains that facts keep their types: in every state of a session the live facts are of declared
types, and a fact that the network knows, or will come to know, has the type of the live fact with its
identity, if there is one. So what a rule was compiled for is what an action finds in the store.
-/

namespace ForwardChaining

namespace FactTable

/-- The identities of the facts were handed out, and a live fact with one of them is of the same type. -/
def Issued (table : FactTable) (facts : List Fact) : Prop :=
  ∀ fact ∈ facts, fact.id < table.nextId
    ∧ ∀ other ∈ table.live, other.id = fact.id → other.type = fact.type

theorem issued_live {table : FactTable} (h : table.WellFormed) : table.Issued table.live := by
  intro fact hfact
  refine ⟨h.below fact hfact, ?_⟩
  intro other hother hid
  rw [h.eq_of_id hfact hother hid]

theorem issued_append {table : FactTable} {facts more : List Fact} :
    table.Issued (facts ++ more) ↔ table.Issued facts ∧ table.Issued more :=
  List.forall_mem_append

theorem Issued.subset {table : FactTable} {facts more : List Fact} (h : table.Issued more)
    (hsubset : facts ⊆ more) : table.Issued facts :=
  fun fact hfact => h fact (hsubset hfact)

theorem Issued.follows {table table' : FactTable} {facts : List Fact} (h : table.Issued facts)
    {change? : Option Change} (hfollows : table.Follows table' change?) : table'.Issued facts := by
  intro fact hfact
  obtain ⟨hbelow, htype⟩ := h fact hfact
  match change? with
  | none =>
    obtain ⟨hlive, hnext, -⟩ := hfollows
    rw [hlive]
    exact ⟨by omega, htype⟩
  | some (.inserted new) =>
    obtain ⟨hid, hlive, hnext, -⟩ := hfollows
    -- the identity of the new fact is not below the next one, so it belongs to none of these
    rw [hlive, List.forall_mem_append, List.forall_mem_singleton]
    exact ⟨by omega, htype, by omega⟩
  | some (.updated new previous) =>
    obtain ⟨hprevious, hid, hsame, hlive, hnext, -⟩ := hfollows
    rw [hlive, hnext]
    refine ⟨hbelow, ?_⟩
    intro other hother heq
    rcases mem_replace hother with rfl | hold
    . rw [hsame]
      exact htype previous hprevious (hid ▸ heq)
    . exact htype other hold heq
  | some (.retracted gone) =>
    obtain ⟨-, hlive, hnext, -⟩ := hfollows
    rw [hlive, hnext]
    exact ⟨hbelow, fun other hother => htype other (List.mem_of_mem_filter hother)⟩

theorem issued_brings {table table' : FactTable} (h : table.WellFormed) {change : Change}
    (hfollows : table.Follows table' (some change)) : table'.Issued change.brings.toList := by
  apply (issued_live (hfollows.wellFormed h)).subset
  intro fact hfact
  obtain ⟨-, -, hleaves⟩ := hfollows.change h
  rw [← hleaves.mem_iff]
  cases change with
  | inserted new | updated new previous =>
    obtain rfl := List.mem_singleton.mp hfact
    simp [Change.applied]
  | retracted gone => cases hfact

end FactTable

namespace Network

variable {ruleSet : RuleSet} {fired : List RefractionKey} {seen : List Fact} {net : Network}

theorem Kept.facts_onChange (h : net.Kept ruleSet fired seen) {change : Change}
    (hadmissible : change.Admissible seen) :
    (net.onChange change).1.working.facts ⊆ net.working.facts ++ change.brings.toList := by
  have hadmissible' := Change.admissible_subset h.known hadmissible
  apply List.Subset.trans (known_onChange h.sound hadmissible' (List.Subset.refl _))
  cases change with
  | inserted fact => exact List.Subset.refl _
  | updated fact previous =>
    exact List.append_subset.mpr ⟨List.subset_append_of_subset_left _ (List.filter_subset_self _),
      List.subset_append_right _ _⟩
  | retracted fact => exact List.subset_append_of_subset_left _ (List.filter_subset_self _)

theorem Kept.facts_follow (h : net.Kept ruleSet fired seen) {changes : List Change}
    (hlegal : Change.Legal seen changes) :
    (listener.follow net changes).working.facts
      ⊆ net.working.facts ++ changes.filterMap (·.brings) := by
  induction changes generalizing net seen with
  | nil => simp [Listener.follow]
  | cons change changes ih =>
    have hfirst := h.facts_onChange hlegal.1
    have hrest := ih (h.onChange hlegal.1) hlegal.2.2
    have hsplit : (change :: changes).filterMap (·.brings)
        = change.brings.toList ++ changes.filterMap (·.brings) := by
      cases hbrings : change.brings <;> simp [hbrings]
    rw [hsplit, ← List.append_assoc]
    exact List.Subset.trans hrest
      (List.append_subset.mpr ⟨List.subset_append_of_subset_left _ hfirst,
        List.subset_append_right _ _⟩)

end Network

namespace Store

/-- The live facts are of the declared types, and what the network knows has kept its type. -/
structure Typed (types : List FactType) (store : Store Network) : Prop where
  declared : store.table.declared = some types
  tidy : store.table.Tidy
  issued : store.table.Issued (store.world.working.facts ++ store.pending.filterMap (·.brings))

section Typed

variable {types : List FactType} {ruleSet : RuleSet} {fired : List RefractionKey}
  {store : Store Network}

theorem Typed.after (h : store.Attended ruleSet fired) (htyped : store.Typed types)
    {table' : FactTable} {change? : Option Change} (hfollows : store.table.Follows table' change?)
    (hdeclared : table'.declared = store.table.declared) (htidy : table'.Tidy) :
    (store.after table' change?).Typed types := by
  have hissued := htyped.issued.follows hfollows
  have hdeclared' := hdeclared.trans htyped.declared
  cases change? with
  | none => exact ⟨hdeclared', htidy, hissued⟩
  | some change =>
    have hbrings := FactTable.issued_brings h.table hfollows
    obtain ⟨hknown, hqueued⟩ := FactTable.issued_append.mp hissued
    obtain ⟨others, hlisteners, hwatch⟩ := h.listeners
    simp only [Store.after, emit]
    -- outside a block the network follows at once, inside one the change waits
    split
    . next hdepth =>
      rw [hlisteners]
      dsimp only
      rw [deliver_followed hwatch]
      have hkept := h.known (h.idle hdepth)
      have hfacts := hkept.facts_onChange (hfollows.change h.table).1
      refine ⟨hdeclared', htidy, FactTable.issued_append.mpr ⟨?_, hqueued⟩⟩
      exact (FactTable.issued_append.mpr ⟨hknown, hbrings⟩).subset hfacts
    . have hpending : (store.pending ++ [change]).filterMap (·.brings)
          = store.pending.filterMap (·.brings) ++ change.brings.toList := by
        rw [List.filterMap_append]
        cases hnew : change.brings <;> simp [hnew]
      refine ⟨hdeclared', htidy, ?_⟩
      rw [hpending, ← List.append_assoc]
      exact FactTable.issued_append.mpr ⟨hissued, hbrings⟩

theorem Typed.leave (h : store.Attended ruleSet fired) (htyped : store.Typed types) :
    store.leave.1.Typed types := by
  obtain ⟨seen, hlegal, hlive, hkept⟩ := h.kept
  obtain ⟨others, hlisteners, hwatch⟩ := h.listeners
  unfold Store.leave
  split
  . dsimp only
    rw [hlisteners, flush_followed hwatch]
    refine ⟨htyped.declared, htyped.tidy, htyped.issued.subset ?_⟩
    rw [List.filterMap_nil, List.append_nil]
    exact hkept.facts_follow hlegal
  . exact ⟨htyped.declared, htyped.tidy, htyped.issued⟩

theorem Typed.apply (h : store.Attended ruleSet fired) (htyped : store.Typed types)
    (mutation : Mutation) : (store.apply mutation).1.Typed types := by
  cases mutation with
  | enter => exact ⟨htyped.declared, htyped.tidy, htyped.issued⟩
  | leave => exact htyped.leave h
  | _ =>
    rw [fst_apply store id]
    exact htyped.after h (store.table.moves_mutate _).follows (store.table.declared_mutate _)
      ((store.table.moves_mutate _).tidy htyped.tidy)

theorem Typed.mapWorld (htyped : store.Typed types) {net : Network}
    (hworking : net.working = store.world.working) :
    ({ store with world := net } : Store Network).Typed types := by
  refine ⟨htyped.declared, htyped.tidy, ?_⟩
  rw [hworking]
  exact htyped.issued

end Typed

end Store

namespace Session

variable {ruleSet : RuleSet}

theorem typed_created (hwellFormed : ruleSet.WellFormed) {options : SessionOptions}
    {journal : List LogEntry} {session : Session}
    (h : ofRuleSet options journal ruleSet = .ok session) :
    session.store.Typed ruleSet.factTypes := by
  have hknown := (kept_created hwellFormed h).known
  have hstore := (ofRuleSet_eq_ok h).2
  refine ⟨by rw [hstore], by rw [hstore]; exact FactTable.tidy_empty _, ?_⟩
  have hpending : session.store.pending = [] := by rw [hstore]
  rw [hpending, List.filterMap_nil, List.append_nil]
  exact fun fact hfact => nomatch hknown hfact

theorem typed_select {types : List FactType} {session next : Session} {a : Activation}
    (htyped : session.store.Typed types) (hselect : session.select = (next, some a)) :
    next.store.Typed types := by
  obtain ⟨agenda, -, rfl⟩ := select_eq_some hselect
  apply htyped.mapWorld
  simp only [Network.markFired]
  split <;> rfl

theorem typed_fire {types : List FactType} {fired : List RefractionKey} {session last : Session}
    (h : session.store.Attended ruleSet fired) (htyped : session.store.Typed types) {a : Activation}
    {result : Except Fault TraceEntry} (hfire : session.fire a = (last, result)) :
    last.store.Typed types := by
  obtain rfl : (session.fire a).1 = last := congrArg Prod.fst hfire
  cases hfiring : session.firingOf a with
  | error fault =>
    rw [fire, hfiring]
    exact htyped
  | ok firing =>
    have hstore : firing.store.Attended ruleSet fired ∧ firing.store.Typed types := by
      rw [store_of_firingOf hfiring]
      exact ⟨h, htyped⟩
    have hkeeps := keeps_performDeferred
      (S := fun store => store.Attended ruleSet fired ∧ store.Typed types)
      (fun store mutation hstore => ⟨hstore.1.apply mutation, hstore.2.apply hstore.1 mutation⟩)
      hstore a.rule
    rw [fire_eq hfiring]
    exact hkeeps.2.mapWorld rfl

theorem History.typed (hwellFormed : ruleSet.WellFormed) {fired : List Activation}
    {session : Session} (h : History ruleSet fired session) :
    session.store.Typed ruleSet.factTypes := by
  induction h with
  | created hcreated => exact typed_created hwellFormed hcreated
  | mutated h mutation ih => exact ih.apply (h.consistent hwellFormed).attended mutation
  | subscribed _ _ ih => exact ⟨ih.declared, ih.tidy, ih.issued⟩
  | idle _ hselect ih =>
    obtain ⟨agenda, -, rfl⟩ := select_eq_none hselect
    exact ih.mapWorld rfl
  | selected _ hselect ih => exact typed_select ih hselect
  | fired h hselect hfire ih | escaped h hselect hfire ih =>
    have hattended := ((h.consistent hwellFormed).select hselect).attended
    have hbegun := (typed_select ih hselect).apply hattended .beginCycle
    have htyped := typed_fire (hattended.apply .beginCycle) hbegun hfire
    exact ⟨htyped.declared, htyped.tidy, htyped.issued⟩
  | logged _ entries ih => exact ih.mapWorld rfl
  | noted _ _ _ _ _ ih => exact ih

end Session
end ForwardChaining
