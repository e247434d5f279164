import ForwardChaining.Proofs.Store.Calls

/-!
This module contains what deferred blocks do, however they are nested and left: while one is open, no listener
is called; when the outermost one is left, every change that was made inside is delivered to everyone, whoever
fails on it; and then changes are delivered at once again.
-/

namespace ForwardChaining

namespace Use

theorem level_mutate {mutation : Mutation} (h : ¬ mutation.IsEdge) (depth : Nat) :
    (Use.mutate mutation : Use σ).level depth = some depth := by
  cases mutation with
  | enter | leave => exact absurd trivial h
  | _ => rfl

theorem Nested.of_prefix {uses part : List (Use σ)} (h : Nested uses) (hpart : part <+: uses) :
    ∃ depth, part.foldlM level 0 = some depth := by
  obtain ⟨rest, rfl⟩ := hpart
  unfold Nested at h
  rw [List.foldlM_append] at h
  obtain ⟨depth, hlevel, -⟩ := Option.bind_eq_some_iff.mp h
  exact ⟨depth, hlevel⟩

end Use

namespace Store

variable {σ : Type} {store : Store (List Call × σ)}

theorem depth_use {use : Use σ} {depth depth' : Nat} (outer : Nat)
    (hlevel : use.level depth = some depth') (hdepth : store.depth = depth + outer) :
    (store.use use).1.depth = depth' + outer := by
  have huses := store.uses_use use
  generalize store.use use = outcome at huses ⊢
  cases huses with
  | subscribed listener =>
    cases hlevel
    exact hdepth
  | entered =>
    cases hlevel
    change store.depth + 1 = _
    omega
  | left hleaves hused own =>
    rw [hleaves] at hlevel
    split at hlevel
    . cases hlevel
    . cases hlevel
      rw [exit, (frame_leave store).2.1, hdepth]
      omega
  | kept hedge hmakes fault? =>
    rw [Use.level_mutate hedge] at hlevel
    cases hlevel
    exact hdepth
  | changed hedge change hmakes =>
    rw [Use.level_mutate hedge] at hlevel
    cases hlevel
    exact (frame_emit _ change).2.1.trans hdepth

theorem open_use {use : Use σ} {depth depth' : Nat} (hlevel : use.level depth = some depth')
    (hdepth : store.depth = depth + 1) : (store.use use).1.world = store.world
      ∧ (store.use use).1.pending = store.pending ++ (store.table.used use).2.toList := by
  have huses := store.uses_use use
  generalize store.use use = outcome at huses ⊢
  cases huses with
  | subscribed listener => exact ⟨rfl, (List.append_nil _).symm⟩
  | entered => exact ⟨rfl, (List.append_nil _).symm⟩
  | left hleaves hused own =>
    rw [hleaves] at hlevel
    split at hlevel
    . cases hlevel
    . next hopen =>
      -- an outer block is still open, so nothing is delivered
      have hinner : ¬ store.depth ≤ 1 := by omega
      rw [hused]
      simp [exit, leave, hinner]
  | kept hedge hmakes fault? =>
    rw [FactTable.used, hmakes]
    exact ⟨rfl, (List.append_nil _).symm⟩
  | changed hedge change hmakes =>
    have hinside : store.depth ≠ 0 := by omega
    rw [FactTable.used, hmakes]
    simp [emit, hinside]

theorem open_useAll {uses : List (Use σ)} {depth depth' : Nat}
    (hlevel : uses.foldlM Use.level depth = some depth') (hdepth : store.depth = depth + 1) :
    (store.useAll uses).depth = depth' + 1 ∧ (store.useAll uses).world = store.world
      ∧ (store.useAll uses).pending = store.pending ++ store.table.emitted uses := by
  induction uses generalizing store depth with
  | nil =>
    cases hlevel
    exact ⟨hdepth, rfl, (List.append_nil _).symm⟩
  | cons use uses ih =>
    rw [List.foldlM_cons] at hlevel
    obtain ⟨middle, hfirst, hrest⟩ := Option.bind_eq_some_iff.mp hlevel
    obtain ⟨hworld, hpending⟩ := open_use hfirst hdepth
    obtain ⟨hlast, hworld', hpending'⟩ := ih hrest (depth_use 1 hfirst hdepth)
    refine ⟨hlast, hworld'.trans hworld, ?_⟩
    rw [FactTable.emitted, ← List.append_assoc, ← hpending, ← table_use]
    exact hpending'

theorem depth_useAll {uses : List (Use σ)} {depth depth' : Nat}
    (hlevel : uses.foldlM Use.level depth = some depth') (hdepth : store.depth = depth) :
    (store.useAll uses).depth = depth' := by
  induction uses generalizing store depth with
  | nil =>
    cases hlevel
    exact hdepth
  | cons use uses ih =>
    rw [List.foldlM_cons] at hlevel
    obtain ⟨middle, hfirst, hrest⟩ := Option.bind_eq_some_iff.mp hlevel
    exact ih hrest (depth_use 0 hfirst hdepth)

/-- Outside of blocks, a change is delivered at once. -/
def Prompt (store : Store (List Call × σ)) : Prop :=
  ∀ mutation change, store.table.makes mutation = some change → ∃ calls,
    Adds store.world calls (store.apply mutation).1.world
      ∧ AtOnce change (List.range store.listeners.length) calls
      ∧ (store.apply mutation).1.pending = []
      ∧ (store.apply mutation).2 = calls.findSome? (·.fault)

theorem prompt_of_idle (hdepth : store.depth = 0) (hidle : store.Idle) (hwatched : store.Watched) :
    store.Prompt := by
  intro mutation change hmakes
  obtain ⟨listeners, hlisteners⟩ := hwatched
  obtain ⟨calls, hadds, honce, hfault⟩ := deliver_watched change store.world 0 listeners
  refine ⟨calls, ?_⟩
  rw [apply_of_makes hmakes, hlisteners, length_watchFrom, List.range_eq_range']
  simp only [emit, hdepth, if_true]
  exact ⟨hadds, honce, hidle hdepth, hfault⟩

/-- What comes of a block that was opened outside of any, and of some uses inside it. -/
structure Defers (opened : Store (List Call × σ)) (inside : List (Use σ)) (own : Option Fault) :
    Prop where
  /-- While a block is open, no listener is called. -/
  silent : ∀ part, part <+: inside → (opened.useAll part).calls = opened.calls
  /-- An inner block is left with what it is left by. -/
  passed : ∀ part own, part ++ [.exit own] <+: inside → ((opened.useAll part).exit own).2 = own
  /-- Every change is delivered to all who listen at the end, and the first fault is raised. -/
  delivered : ∃ calls,
    ((opened.useAll inside).exit own).1.calls = opened.calls ++ calls
      ∧ calls.map (fun call => (call.change, call.listener))
        = (opened.table.emitted inside).flatMap (fun change =>
          (List.range (opened.useAll inside).listeners.length).map (change, ·))
      ∧ ((opened.useAll inside).exit own).2 = (calls.findSome? (·.fault)).or own
  /-- The queue is empty then. -/
  emptied : ((opened.useAll inside).exit own).1.pending = []
  /-- Later changes are delivered at once, unless another block is open. -/
  prompt : ∀ later, Use.Nested later → (((opened.useAll inside).exit own).1.useAll later).Prompt

/-- Inside a block, another one is left by an exception, and then somebody else listens. -/
def escapedUses : List (Use Unit) :=
  [.mutate (.insert (.text "item") .null), .mutate .enter, .mutate (.retract (.int 1)),
    .exit (some (.noSuchFact (.int 2))), .subscribe refusing]

end Store
end ForwardChaining
