import ForwardChaining.Proofs.Agenda
import ForwardChaining.Proofs.Past
import ForwardChaining.Proofs.Value.Key
import Mathlib.Data.List.Induction
import Mathlib.Data.List.Sort

/-!
This module contains what an agenda is to those who use it: a map from keys to the activations that were
offered last, of which the least comes next. The queue behind it may hold any number of stale entries, and
the same activation may be offered again after it was withdrawn, replaced or selected.
-/

namespace ForwardChaining

/-- The sort key is less, so the activation is selected first. -/
def Activation.Precedes (a b : Activation) : Prop :=
  a.sortKey.compare b.sortKey = .lt

instance : Std.Irrefl Activation.Precedes where
  irrefl a := by
    unfold Activation.Precedes
    rw [SortKey.compare_self]
    simp

instance : Std.Antisymm Activation.Precedes where
  antisymm a b hab hba := by
    have hself := Std.TransCmp.lt_trans hab hba
    rw [SortKey.compare_self] at hself
    cases hself

namespace Agenda

/-- An operation on an agenda. -/
inductive Request where
  | offer (a : Activation)
  | withdraw (key : ActivationKey)
  | select
  | peek
  | clear

/-- What an operation answers. -/
inductive Reply where
  | done
  | withdrawn (found : Bool)
  | next (a : Option Activation)

/-- The agenda after an operation, and the answer. -/
def serve (agenda : Agenda) : Request → Agenda × Reply
  | .offer a => (agenda.offer a, .done)
  | .withdraw key => ((agenda.withdraw key).1, .withdrawn (agenda.withdraw key).2)
  | .select => (agenda.select.1, .next agenda.select.2)
  | .peek => (agenda.peek.1, .next agenda.peek.2)
  | .clear => (agenda.clear, .done)

/-- The agenda after some operations, and each of them with its answer. -/
def serveAll (agenda : Agenda) : List Request → Agenda × List (Request × Reply)
  | [] => (agenda, [])
  | request :: requests =>
    let (next, reply) := agenda.serve request
    let (last, past) := serveAll next requests
    (last, (request, reply) :: past)

/-- What was pending under a key is not any more: it was replaced, withdrawn, selected or dropped. -/
def Displaces (key : ActivationKey) : Request × Reply → Prop
  | (.offer a, _) => a.key = key
  | (.withdraw withdrawn, _) => withdrawn = key
  | (.select, .next (some a)) => a.key = key
  | (.clear, _) => True
  | _ => False

/-- The activation was the last one offered under its key, and nothing has displaced it since. -/
def Standing (past : List (Request × Reply)) (a : Activation) : Prop :=
  Since (· = (.offer a, .done)) (Displaces a.key) past

/-- What the agenda holds and what it answers next, by what it was asked and has answered so far. -/
structure ActsAsMap (agenda : Agenda) (past : List (Request × Reply)) : Prop where
  pending : ∀ key a, agenda.find? key = some a ↔ a.key = key ∧ Standing past a
  listed : ∀ a, a ∈ agenda.activations ↔ Standing past a
  ordered : agenda.activations.Pairwise Activation.Precedes
  size : agenda.size = agenda.activations.length
  select : agenda.select.2 = agenda.activations.head?
  selected : agenda.select.1.activations = agenda.activations.tail
  peek : agenda.peek.2 = agenda.activations.head?
  peeked : agenda.peek.1.activations = agenda.activations
  withdraw : ∀ key, (agenda.withdraw key).2 = true ↔ ∃ a, a.key = key ∧ Standing past a
  none_selected : agenda.select.2 = none ↔ agenda.size = 0
  none_peeked : agenda.peek.2 = none ↔ agenda.size = 0
  returned : ∀ a, agenda.select.2 = some a ∨ agenda.peek.2 = some a → Standing past a

theorem serveAll_snoc (agenda : Agenda) (requests : List Request) (request : Request) :
    agenda.serveAll (requests ++ [request])
      = (((agenda.serveAll requests).1.serve request).1, (agenda.serveAll requests).2
        ++ [(request, ((agenda.serveAll requests).1.serve request).2)]) := by
  induction requests generalizing agenda with
  | nil => rfl
  | cons first requests ih =>
    simp only [List.cons_append, serveAll]
    rw [ih]

/-! ### The entries -/

theorem mem_keys_put {a : Activation} {entries : List (ActivationKey × Activation)}
    {key : ActivationKey} :
    key ∈ (put a entries).map (·.1) ↔ key = a.key ∨ key ∈ entries.map (·.1) := by
  induction entries with
  | nil => simp [put]
  | cons entry entries ih =>
    unfold put
    split
    . next heq => simp [heq]
    . rw [List.map_cons, List.mem_cons, ih, List.map_cons, List.mem_cons]
      tauto

theorem nodup_put {entries : List (ActivationKey × Activation)} (h : (entries.map (·.1)).Nodup)
    (a : Activation) : ((put a entries).map (·.1)).Nodup := by
  induction entries with
  | nil => exact List.nodup_singleton _
  | cons entry entries ih =>
    have hcons := List.nodup_cons.mp h
    unfold put
    split
    . exact h
    . next hne =>
      rw [List.map_cons, List.nodup_cons, mem_keys_put]
      refine ⟨?_, ih hcons.2⟩
      rintro (heq | hmem)
      . exact hne heq
      . exact hcons.1 hmem

theorem nodup_drop {entries : List (ActivationKey × Activation)} (h : (entries.map (·.1)).Nodup)
    (key : ActivationKey) : ((drop key entries).map (·.1)).Nodup :=
  h.sublist (List.filter_sublist.map _)

theorem entries_select (agenda : Agenda) : agenda.select.1.entries
    = match agenda.select.2 with
      | none => agenda.entries
      | some a => drop a.key agenda.entries := by
  unfold select
  split <;> rfl

theorem entries_peek (agenda : Agenda) : agenda.peek.1.entries = agenda.entries := by
  unfold peek
  split <;> rfl

theorem select_eq_peek (agenda : Agenda) : agenda.select.2 = agenda.peek.2 := by
  unfold select peek
  split <;> rfl

theorem find?_select (agenda : Agenda) (key : ActivationKey) : agenda.select.1.find? key
    = match agenda.select.2 with
      | none => agenda.find? key
      | some a => if key = a.key then none else agenda.find? key := by
  unfold find?
  rw [entries_select]
  split
  . rfl
  . exact lookup_drop _ _ _

theorem find?_peek (agenda : Agenda) (key : ActivationKey) :
    agenda.peek.1.find? key = agenda.find? key := by
  unfold find?
  rw [entries_peek]

/-! ### What is pending stands in the queue -/

namespace Backed

variable {agenda : Agenda} (h : agenda.Backed)

include h

theorem shrink {queue : List Entry} {entries : List (ActivationKey × Activation)}
    (hqueue : queue.Sublist agenda.queue)
    (hentries : ∀ key a, entries.lookup key = some a →
      agenda.find? key = some a ∧ ∃ e ∈ queue, e.activation = a) :
    ({ agenda with queue, entries } : Agenda).Backed := by
  refine ⟨?_, ?_, h.sorted.sublist hqueue, ?_⟩
  . intro key a ha
    exact h.own key a (hentries key a ha).1
  . intro key a ha
    exact (hentries key a ha).2
  . intro e he e' he'
    exact h.identified e (hqueue.subset he) e' (hqueue.subset he')

theorem offer {a : Activation}
    (hidentified : ∀ e ∈ agenda.queue, e.activation.serial = a.serial → e.activation = a) :
    (agenda.offer a).Backed := by
  refine ⟨?_, ?_, sorted_enqueue h.sorted _, ?_⟩
  . intro key b hb
    rw [find?_offer] at hb
    split at hb
    . next hkey => rw [← Option.some.inj hb, hkey]
    . exact h.own key b hb
  . intro key b hb
    rw [find?_offer] at hb
    split at hb
    . exact ⟨⟨a, agenda.counter⟩, mem_enqueue.mpr (.inl rfl), Option.some.inj hb⟩
    . obtain ⟨e, he, heq⟩ := h.queued key b hb
      exact ⟨e, mem_enqueue.mpr (.inr he), heq⟩
  . intro e he e' he' hserial
    rcases mem_enqueue.mp he with rfl | he <;> rcases mem_enqueue.mp he' with rfl | he'
    . rfl
    . exact (hidentified e' he' hserial.symm).symm
    . exact hidentified e he hserial
    . exact h.identified e he e' he' hserial

theorem withdraw (key : ActivationKey) : (agenda.withdraw key).1.Backed := by
  apply h.shrink (List.Sublist.refl _)
  intro other a ha
  rw [lookup_drop] at ha
  split at ha
  . cases ha
  . exact ⟨ha, h.queued other a ha⟩

theorem select : agenda.select.1.Backed := by
  have hsublist := skipStale_sublist agenda agenda.queue
  unfold Agenda.select
  cases hrest : agenda.skipStale agenda.queue with
  | nil =>
    apply h.shrink (List.nil_sublist _)
    intro key a ha
    change agenda.find? key = some a at ha
    rw [h.find?_of_skipStale_nil hrest] at ha
    cases ha
  | cons e es =>
    rw [hrest] at hsublist
    apply h.shrink ((List.sublist_cons_self e es).trans hsublist)
    intro key a ha
    rw [lookup_drop] at ha
    split at ha
    . cases ha
    . next hne =>
      -- what was skipped is not pending, so whatever is pending still has an entry behind the head
      obtain ⟨other, hother, rfl⟩ := h.queued_skipStale ha
      rw [hrest] at hother
      rcases List.mem_cons.mp hother with rfl | hother
      . exact absurd (h.own key _ ha).symm hne
      . exact ⟨ha, other, hother, rfl⟩

theorem peek : agenda.peek.1.Backed := by
  have hsublist := skipStale_sublist agenda agenda.queue
  unfold Agenda.peek
  cases hrest : agenda.skipStale agenda.queue with
  | nil =>
    apply h.shrink (List.nil_sublist _)
    intro key a ha
    change agenda.find? key = some a at ha
    rw [h.find?_of_skipStale_nil hrest] at ha
    cases ha
  | cons e es =>
    rw [hrest] at hsublist
    apply h.shrink hsublist
    intro key a ha
    obtain ⟨other, hother, rfl⟩ := h.queued_skipStale ha
    rw [hrest] at hother
    exact ⟨ha, other, hother, rfl⟩

/-- What comes next is pending and comes before all that is. If nothing comes next, nothing is pending. -/
theorem peek_spec : match agenda.peek.2 with
    | none => ∀ key, agenda.find? key = none
    | some a => agenda.find? a.key = some a ∧ ∀ key b, agenda.find? key = some b →
      (a.sortKey.compare b.sortKey).isLE = true := by
  unfold Agenda.peek
  cases hrest : agenda.skipStale agenda.queue with
  | nil => exact h.find?_of_skipStale_nil hrest
  | cons e es => exact h.first_of_skipStale hrest

end Backed

/-! ### The order of selection -/

/-- The activations that were offered can be told apart, and so can their rules. -/
structure Distinguished (offered : Activation → Prop) : Prop where
  serials : ∀ a b, offered a → offered b → a.serial = b.serial → a = b
  orders : ∀ a b, offered a → offered b → a.rule.order = b.rule.order → a.rule.name = b.rule.name

/-- Under each key there is one entry, and it stands in the queue, as nothing does that was not offered. -/
structure Kept (agenda : Agenda) (offered : Activation → Prop) : Prop where
  backed : agenda.Backed
  keys : (agenda.entries.map (·.1)).Nodup
  offered : ∀ e ∈ agenda.queue, offered e.activation

theorem kept_clear (agenda : Agenda) (offered : Activation → Prop) : agenda.clear.Kept offered := by
  have hnone : ∀ key, agenda.clear.find? key = none := fun _ => rfl
  refine ⟨⟨?_, ?_, .nil, by simp [clear]⟩, .nil, by simp [clear]⟩
  . intro key a ha
    rw [hnone] at ha
    cases ha
  . intro key a ha
    rw [hnone] at ha
    cases ha

namespace Kept

variable {agenda : Agenda} {offered : Activation → Prop} (h : agenda.Kept offered)

include h

theorem serve (hoffered : Distinguished offered) (request : Request)
    (hrequest : ∀ a, request = .offer a → offered a) : (agenda.serve request).1.Kept offered := by
  have hsublist := skipStale_sublist agenda agenda.queue
  cases request with
  | offer a =>
    have ha := hrequest a rfl
    refine ⟨h.backed.offer ?_, nodup_put h.keys a, ?_⟩
    . intro e he
      exact hoffered.serials _ _ (h.offered e he) ha
    . intro e he
      rcases mem_enqueue.mp he with rfl | he
      . exact ha
      . exact h.offered e he
  | withdraw key => exact ⟨h.backed.withdraw key, nodup_drop h.keys key, h.offered⟩
  | select =>
    refine ⟨h.backed.select, ?_, ?_⟩
    . change (agenda.select.1.entries.map (·.1)).Nodup
      rw [entries_select]
      split
      . exact h.keys
      . exact nodup_drop h.keys _
    . intro e he
      simp only [Agenda.serve, Agenda.select] at he
      split at he
      . cases he
      . next hrest =>
        rw [hrest] at hsublist
        exact h.offered e (hsublist.subset (List.mem_cons_of_mem _ he))
  | peek =>
    refine ⟨h.backed.peek, ?_, ?_⟩
    . change (agenda.peek.1.entries.map (·.1)).Nodup
      rw [entries_peek]
      exact h.keys
    . intro e he
      simp only [Agenda.serve, Agenda.peek] at he
      split at he
      . cases he
      . next hrest =>
        rw [hrest] at hsublist
        exact h.offered e (hsublist.subset he)
  | clear => exact kept_clear agenda offered

theorem mem_activations (a : Activation) :
    a ∈ agenda.activations ↔ agenda.find? a.key = some a := by
  unfold activations
  rw [List.mem_mergeSort, List.mem_map]
  constructor
  . rintro ⟨⟨key, b⟩, hmem, rfl⟩
    have hfound := (lookup_eq_some_iff_mem h.keys key b).mpr hmem
    rw [h.backed.own key b hfound]
    exact hfound
  . intro hfound
    exact ⟨(a.key, a), (lookup_eq_some_iff_mem h.keys _ _).mp hfound, rfl⟩

theorem offered_of_mem {a : Activation} (ha : a ∈ agenda.activations) : offered a := by
  obtain ⟨e, he, rfl⟩ := h.backed.queued a.key a ((h.mem_activations a).mp ha)
  exact h.offered e he

theorem nodup_keys_activations : (agenda.activations.map (·.key)).Nodup := by
  have hperm : (agenda.activations.map (·.key)).Perm (agenda.entries.map (·.1)) := by
    have heq : (agenda.entries.map (·.2)).map (·.key) = agenda.entries.map (·.1) := by
      rw [List.map_map]
      apply List.map_congr_left
      intro entry hentry
      exact h.backed.own entry.1 entry.2 ((lookup_eq_some_iff_mem h.keys _ _).mpr hentry)
    rw [← heq]
    exact (List.mergeSort_perm _ _).map _
  exact hperm.nodup_iff.mpr h.keys

theorem ordered (hoffered : Distinguished offered) :
    agenda.activations.Pairwise Activation.Precedes := by
  have hsorted : agenda.activations.Pairwise
      fun a b => (a.sortKey.compare b.sortKey != .gt) = true := by
    apply List.pairwise_mergeSort
    . intro a b c hab hbc
      rw [bne_iff_ne, ne_eq, ← Ordering.isLE_iff_ne_gt] at hab hbc ⊢
      exact Std.TransCmp.isLE_trans hab hbc
    . intro a b
      rw [Bool.or_eq_true, bne_iff_ne, bne_iff_ne]
      by_cases hgt : a.sortKey.compare b.sortKey = .gt
      . rw [Std.OrientedCmp.gt_iff_lt] at hgt
        exact .inr (by rw [hgt]; simp)
      . exact .inl hgt
  have hkeys := List.pairwise_map.mp h.nodup_keys_activations
  apply (hsorted.and hkeys).imp_of_mem
  rintro a b ha hb ⟨hle, hne⟩
  unfold Activation.Precedes
  rw [bne_iff_ne] at hle
  cases hcompare : a.sortKey.compare b.sortKey with
  | lt => rfl
  | gt => exact absurd hcompare hle
  | eq =>
    -- equal sort keys are of one rule, and of one token
    have heq := (SortKey.compare_eq_iff _ _).mp hcompare
    have hname := hoffered.orders a b (h.offered_of_mem ha) (h.offered_of_mem hb)
      (congrArg SortKey.order heq)
    exact absurd (Prod.ext hname (congrArg SortKey.token heq)) hne

theorem peek_eq_head? (hoffered : Distinguished offered) :
    agenda.peek.2 = agenda.activations.head? := by
  have hspec := h.backed.peek_spec
  have hordered := h.ordered hoffered
  cases hpeek : agenda.peek.2 with
  | none =>
    simp only [hpeek] at hspec
    cases hactivations : agenda.activations with
    | nil => rfl
    | cons b rest =>
      have hb := (h.mem_activations b).mp (by rw [hactivations]; simp)
      rw [hspec] at hb
      cases hb
  | some a =>
    simp only [hpeek] at hspec
    have ha := (h.mem_activations a).mpr hspec.1
    cases hactivations : agenda.activations with
    | nil =>
      rw [hactivations] at ha
      cases ha
    | cons b rest =>
      rw [hactivations] at ha hordered
      rcases List.mem_cons.mp ha with rfl | ha
      . rfl
      . have hb := (h.mem_activations b).mp (by rw [hactivations]; simp)
        have hbefore := (List.pairwise_cons.mp hordered).1 a ha
        have hle := hspec.2 b.key b hb
        rw [Ordering.isLE_iff_ne_gt] at hle
        exact absurd (Std.OrientedCmp.gt_iff_lt.mpr hbefore) hle

omit h in
theorem size_eq (agenda : Agenda) : agenda.size = agenda.activations.length := by
  unfold size activations
  rw [List.length_mergeSort, List.length_map]

theorem activations_select (hoffered : Distinguished offered) :
    agenda.select.1.activations = agenda.activations.tail := by
  have hselect := h.serve hoffered .select (by simp)
  change agenda.select.1.Kept offered at hselect
  have hhead := h.peek_eq_head? hoffered
  have hordered := h.ordered hoffered
  have hentries := entries_select agenda
  rw [select_eq_peek, hhead] at hentries
  cases hactivations : agenda.activations with
  | nil =>
    rw [hactivations] at hentries
    unfold activations at hactivations ⊢
    rw [hentries]
    exact hactivations
  | cons a rest =>
    rw [hactivations, List.head?_cons] at hhead
    rw [hactivations] at hordered
    obtain ⟨hfirst, hrest⟩ := List.pairwise_cons.mp hordered
    -- both lists are in the order of selection, so it is enough that they hold the same activations
    apply (hselect.ordered hoffered).eq_of_mem_iff hrest
    intro b
    have hmem := h.mem_activations b
    rw [hactivations, List.mem_cons] at hmem
    rw [hselect.mem_activations, find?_select, select_eq_peek, hhead]
    dsimp only
    constructor
    . intro hb
      split at hb
      . cases hb
      . next hne => exact (hmem.mpr hb).resolve_left fun heq => hne (by rw [heq])
    . intro hb
      have hkeys := h.nodup_keys_activations
      rw [hactivations, List.map_cons, List.nodup_cons] at hkeys
      rw [if_neg]
      . exact hmem.mp (.inr hb)
      . intro heq
        exact hkeys.1 (heq ▸ List.mem_map.mpr ⟨b, hb, rfl⟩)

end Kept

/-! ### The past -/

theorem pending_serve {agenda : Agenda} {past : List (Request × Reply)}
    (h : ∀ key a, agenda.find? key = some a ↔ a.key = key ∧ Standing past a) (request : Request)
    (key : ActivationKey) (a : Activation) : (agenda.serve request).1.find? key = some a
      ↔ a.key = key ∧ Standing (past ++ [(request, (agenda.serve request).2)]) a := by
  unfold Standing at h ⊢
  rw [since_snoc]
  -- an operation on another key displaces nothing under this one
  have hother : ∀ {served : ActivationKey} {standing : Prop}, ¬ key = served →
      (a.key = key ∧ standing ↔ a.key = key ∧ standing ∧ ¬ served = a.key) := by
    intro served standing hkey
    refine and_congr_right fun hown => ?_
    rw [hown, and_iff_left fun heq => hkey heq.symm]
  cases request with
  | offer b =>
    simp only [serve, find?_offer, Displaces, Prod.mk.injEq, Request.offer.injEq, and_true]
    split
    . next hkey =>
      constructor
      . rintro ⟨⟩
        exact ⟨hkey.symm, .inl rfl⟩
      . rintro ⟨hown, rfl | ⟨-, hother⟩⟩
        . rfl
        . exact absurd (hkey.symm.trans hown.symm) hother
    . next hkey =>
      rw [h, hother hkey]
      refine and_congr_right fun hown => (or_iff_right ?_).symm
      rintro rfl
      exact hkey hown.symm
  | withdraw withdrawn =>
    simp only [serve, find?_withdraw, Displaces, Prod.mk.injEq, reduceCtorEq, false_and, false_or]
    split
    . next hkey => simp +contextual [hkey]
    . next hkey => rw [h, hother hkey]
  | select =>
    simp only [serve, find?_select, Prod.mk.injEq, reduceCtorEq, false_and, false_or]
    cases agenda.select.2 with
    | none => simp only [Displaces, not_false_eq_true, and_true, h]
    | some b =>
      simp only [Displaces]
      split
      . next hkey => simp +contextual [hkey]
      . next hkey => rw [h, hother hkey]
  | peek =>
    simp only [serve, find?_peek, Displaces, Prod.mk.injEq, reduceCtorEq, false_and, false_or,
      not_false_eq_true, and_true, h]
  | clear =>
    have hnone : agenda.clear.find? key = none := rfl
    simp [serve, hnone, Displaces]

theorem kept_serveAll {offered : Activation → Prop} (hoffered : Distinguished offered)
    {requests : List Request} (hrequests : ∀ a, .offer a ∈ requests → offered a) :
    (({} : Agenda).serveAll requests).1.Kept offered
      ∧ ∀ key a, (({} : Agenda).serveAll requests).1.find? key = some a
        ↔ a.key = key ∧ Standing (({} : Agenda).serveAll requests).2 a := by
  induction requests using List.reverseRecOn with
  | nil =>
    refine ⟨kept_clear {} offered, ?_⟩
    intro key a
    have hnone : ({} : Agenda).find? key = none := rfl
    simp [serveAll, hnone, Standing, not_since_nil]
  | append_singleton requests request ih =>
    obtain ⟨hkept, hpending⟩ := ih fun a ha => hrequests a (by simp [ha])
    rw [serveAll_snoc]
    refine ⟨hkept.serve hoffered request ?_, pending_serve hpending request⟩
    rintro a rfl
    exact hrequests a (by simp)

/--
Whatever activations are offered, withdrawn, selected, looked at and dropped, in whatever order and however
often, an agenda is a map from keys to the activations that were offered last, of which the least is next.
-/
theorem acts_as_map {rules : List Rule} (horders : (rules.map (·.order)).Nodup)
    {requests : List Request} (hrules : ∀ a, .offer a ∈ requests → a.rule ∈ rules)
    (hserials : ∀ a b, .offer a ∈ requests → .offer b ∈ requests → a.serial = b.serial → a = b) :
    ActsAsMap (({} : Agenda).serveAll requests).1 (({} : Agenda).serveAll requests).2 := by
  -- distinct orders settle what priority, recency and specificity leave open between two rules
  have hoffered : Distinguished (.offer · ∈ requests) := by
    refine ⟨hserials, ?_⟩
    intro a b ha hb horder
    rw [List.inj_on_of_nodup_map horders (hrules a ha) (hrules b hb) horder]
  obtain ⟨hkept, hpending⟩ := kept_serveAll hoffered fun a ha => ha
  generalize (({} : Agenda).serveAll requests).1 = agenda at hkept hpending ⊢
  generalize (({} : Agenda).serveAll requests).2 = past at hpending ⊢
  have hlisted : ∀ a, a ∈ agenda.activations ↔ Standing past a := by
    intro a
    rw [hkept.mem_activations, hpending]
    simp
  have hpeek := hkept.peek_eq_head? hoffered
  have hselect := (select_eq_peek agenda).trans hpeek
  have hsize := Kept.size_eq agenda
  exact {
    pending := hpending
    listed := hlisted
    ordered := hkept.ordered hoffered
    size := hsize
    select := hselect
    selected := hkept.activations_select hoffered
    peek := hpeek
    peeked := by unfold activations; rw [entries_peek]
    withdraw := by
      intro key
      change (agenda.find? key).isSome = true ↔ _
      simp only [Option.isSome_iff_exists, hpending]
    none_selected := by rw [hselect, List.head?_eq_none_iff, hsize, List.length_eq_zero_iff]
    none_peeked := by rw [hpeek, List.head?_eq_none_iff, hsize, List.length_eq_zero_iff]
    returned := by
      intro a ha
      rw [hselect, hpeek, or_self] at ha
      exact (hlisted a).mp (List.mem_of_head? ha) }

/-- A rule that comes before `idleRule`. -/
def urgentRule : Rule :=
  { name := "urgent", priority := 1 }

/-- A rule that comes after `urgentRule`. -/
def idleRule : Rule :=
  { name := "idle", order := 1 }

/-- An activation that binds the first fact. -/
def boundToFirst (rule : Rule) (serial : Nat) (stamp : Int) : Activation :=
  { rule, token := [1], recency := [stamp], serial }

/-- An activation is offered again after it was withdrawn, after it was replaced and after it was selected. -/
def reoffers : List Request :=
  let a := boundToFirst urgentRule 0 1
  [.offer a, .withdraw a.key, .offer a, .offer (boundToFirst urgentRule 1 2), .offer a,
    .offer (boundToFirst idleRule 2 1), .select, .offer a, .peek]

theorem acts_as_map_reoffers :
    ActsAsMap (({} : Agenda).serveAll reoffers).1 (({} : Agenda).serveAll reoffers).2
      ∧ (({} : Agenda).serveAll reoffers).1.select.2.map (·.serial) = some 0
      ∧ (({} : Agenda).serveAll reoffers).1.size = 2 := by
  have horders : ([urgentRule, idleRule].map (·.order)).Nodup := by decide
  have hoffered : ∀ a, .offer a ∈ reoffers → a = boundToFirst urgentRule 0 1
      ∨ a = boundToFirst urgentRule 1 2 ∨ a = boundToFirst idleRule 2 1 := by
    simp [reoffers]
  refine ⟨acts_as_map horders ?_ ?_, by decide, by decide⟩
  . intro a ha
    rcases hoffered a ha with rfl | rfl | rfl <;> simp [boundToFirst]
  . intro a b ha hb
    rcases hoffered a ha with rfl | rfl | rfl <;> rcases hoffered b hb with rfl | rfl | rfl <;>
      simp [boundToFirst]

end Agenda
end ForwardChaining
