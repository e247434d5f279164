import ForwardChaining.Agenda
import Mathlib.Data.List.Nodup

/-!
This module contains the laws of the agenda. The order of selection is total, the queue is always in that
order, and whatever is pending stands in it. So the first entry that is still pending is the least of
all that are, no matter how many stale entries the queue holds.
-/

namespace ForwardChaining

namespace SortKey

theorem compareLists_eq (xs ys : List Int) : compareLists xs ys = List.compareLex Ord.compare xs ys := by
  induction xs generalizing ys with
  | nil => cases ys <;> rfl
  | cons x xs ih =>
    cases ys with
    | nil => rfl
    | cons y ys => rw [compareLists, ih, List.compareLex_cons_cons]

theorem compare_eq_compareLex : compare =
    compareLex (compareOn SortKey.priority) (compareLex (compareOn SortKey.specificity)
      (compareLex (compareOn SortKey.stamps)
        (compareLex (compareOn SortKey.order) (compareOn SortKey.token)))) := by
  funext a b
  unfold compare
  rw [compareLists_eq, compareLists_eq]
  rfl

instance : Std.TransCmp compare := by
  rw [compare_eq_compareLex]
  infer_instance

theorem compareLists_eq_iff (xs ys : List Int) : compareLists xs ys = .eq ↔ xs = ys := by
  rw [compareLists_eq]
  exact Std.LawfulEqCmp.compare_eq_iff_eq

theorem compare_eq_iff (a b : SortKey) : a.compare b = .eq ↔ a = b := by
  unfold compare
  rw [Ordering.then_eq_eq, Ordering.then_eq_eq, Ordering.then_eq_eq, Ordering.then_eq_eq,
    compareLists_eq_iff, compareLists_eq_iff, Std.compare_eq_iff_eq, Std.compare_eq_iff_eq,
    Std.compare_eq_iff_eq]
  cases a
  cases b
  simp only [mk.injEq]

theorem compare_self (a : SortKey) : a.compare a = .eq :=
  (compare_eq_iff a a).mpr rfl

end SortKey

namespace Agenda

theorem Entry.before_iff (a b : Entry) : a.before b = true
    ↔ a.activation.sortKey.compare b.activation.sortKey = .lt
      ∨ (a.activation.sortKey.compare b.activation.sortKey = .eq ∧ a.number < b.number) := by
  unfold Entry.before
  cases a.activation.sortKey.compare b.activation.sortKey <;> simp

theorem Entry.before_trans {a b c : Entry} (h : a.before b = true) (h' : b.before c = true) :
    a.before c = true := by
  rw [before_iff] at h h' ⊢
  rcases h with h | ⟨h, hn⟩
  . left
    rcases h' with h' | ⟨h', -⟩
    . exact Std.TransCmp.lt_trans h h'
    . rw [SortKey.compare_eq_iff] at h'
      rw [← h']
      exact h
  . rw [SortKey.compare_eq_iff] at h
    rw [h]
    rcases h' with h' | ⟨h', hn'⟩
    . exact .inl h'
    . right
      exact ⟨h', by omega⟩

theorem Entry.not_before_of_before {a b : Entry} (h : a.before b = true) : b.before a = false := by
  rw [Bool.eq_false_iff]
  intro h'
  have hself := before_trans h h'
  rw [before_iff, SortKey.compare_self] at hself
  simp at hself

theorem enqueue_perm (entry : Entry) (queue : List Entry) :
    (enqueue entry queue).Perm (entry :: queue) := by
  induction queue with
  | nil => exact .refl _
  | cons first queue ih =>
    unfold enqueue
    split
    . exact .refl _
    . exact (ih.cons first).trans (.swap entry first queue)

theorem mem_enqueue {entry e : Entry} {queue : List Entry} :
    e ∈ enqueue entry queue ↔ e = entry ∨ e ∈ queue :=
  (enqueue_perm entry queue).mem_iff.trans List.mem_cons

/-- No entry of the queue comes before an earlier one. -/
def Sorted (queue : List Entry) : Prop :=
  queue.Pairwise fun a b => b.before a = false

theorem sorted_enqueue {queue : List Entry} (h : Sorted queue) (entry : Entry) :
    Sorted (enqueue entry queue) := by
  induction queue with
  | nil => exact List.pairwise_singleton _ _
  | cons first queue ih =>
    obtain ⟨hfirst, hrest⟩ := List.pairwise_cons.mp h
    unfold enqueue
    split
    . next hbefore =>
      apply List.pairwise_cons.mpr
      refine ⟨?_, h⟩
      rw [List.forall_mem_cons]
      refine ⟨Entry.not_before_of_before hbefore, ?_⟩
      intro e he
      rw [Bool.eq_false_iff]
      intro hlater
      have hnot := hfirst e he
      rw [Entry.before_trans hlater hbefore] at hnot
      cases hnot
    . next hnot =>
      apply List.pairwise_cons.mpr
      refine ⟨?_, ih hrest⟩
      intro e he
      rcases mem_enqueue.mp he with rfl | he
      . exact Bool.eq_false_iff.mpr hnot
      . exact hfirst e he

/-! ### The pending activations -/

theorem lookup_put (a : Activation) (entries : List (ActivationKey × Activation))
    (key : ActivationKey) :
    (put a entries).lookup key = if key = a.key then some a else entries.lookup key := by
  induction entries with
  | nil =>
    rw [put, List.lookup_cons]
    by_cases hkey : key = a.key
    . simp [hkey]
    . have hne : (key == a.key) = false := by simpa using hkey
      rw [hne, if_neg hkey]
  | cons entry entries ih =>
    obtain ⟨k, b⟩ := entry
    unfold put
    split
    . next heq =>
      subst heq
      rw [List.lookup_cons, List.lookup_cons]
      by_cases hkey : key = a.key
      . simp [hkey]
      . have hne : (key == a.key) = false := by simpa using hkey
        rw [hne, if_neg hkey]
    . next hne =>
      rw [List.lookup_cons, List.lookup_cons, ih]
      by_cases hkey : key = k
      . subst hkey
        simp [hne]
      . have hne : (key == k) = false := by simpa using hkey
        rw [hne]

theorem lookup_drop (dropped : ActivationKey) (entries : List (ActivationKey × Activation))
    (key : ActivationKey) :
    (drop dropped entries).lookup key = if key = dropped then none else entries.lookup key := by
  induction entries with
  | nil => simp [drop]
  | cons entry entries ih =>
    obtain ⟨k, b⟩ := entry
    unfold drop at ih ⊢
    rw [List.filter_cons, List.lookup_cons]
    by_cases hk : k = dropped
    . subst hk
      simp only [ne_eq, not_true_eq_false, decide_false, Bool.false_eq_true, if_false]
      rw [ih]
      by_cases hkey : key = k
      . simp [hkey]
      . have hne : (key == k) = false := by simpa using hkey
        rw [hne]
    . simp only [ne_eq, hk, not_false_eq_true, decide_true, if_true]
      rw [List.lookup_cons, ih]
      by_cases hkey : key = k
      . subst hkey
        simp [hk]
      . have hne : (key == k) = false := by simpa using hkey
        rw [hne]

theorem find?_offer (agenda : Agenda) (a : Activation) (key : ActivationKey) :
    (agenda.offer a).find? key = if key = a.key then some a else agenda.find? key :=
  lookup_put a agenda.entries key

theorem find?_withdraw (agenda : Agenda) (withdrawn key : ActivationKey) :
    (agenda.withdraw withdrawn).1.find? key
      = if key = withdrawn then none else agenda.find? key :=
  lookup_drop withdrawn agenda.entries key

/-! ### What stands in the queue -/

theorem skipStale_cases (agenda : Agenda) (queue : List Entry) :
    ∃ skipped, queue = skipped ++ agenda.skipStale queue
      ∧ (∀ e ∈ skipped, agenda.isLive e.activation = false)
      ∧ ∀ e ∈ (agenda.skipStale queue).head?, agenda.isLive e.activation = true := by
  induction queue with
  | nil => exact ⟨[], rfl, by simp, by simp [skipStale]⟩
  | cons first queue ih =>
    unfold skipStale
    split
    . next hlive =>
      refine ⟨[], rfl, by simp, ?_⟩
      simpa using hlive
    . next hstale =>
      obtain ⟨skipped, heq, hskipped, hhead⟩ := ih
      refine ⟨first :: skipped, by rw [List.cons_append, ← heq], ?_, hhead⟩
      rw [List.forall_mem_cons]
      exact ⟨Bool.eq_false_iff.mpr hstale, hskipped⟩

theorem skipStale_sublist (agenda : Agenda) (queue : List Entry) :
    (agenda.skipStale queue).Sublist queue := by
  obtain ⟨skipped, hqueue, -⟩ := skipStale_cases agenda queue
  conv_rhs => rw [hqueue]
  exact List.sublist_append_right _ _

/--
Everything that is pending stands in the queue, and the queue is in the order of selection. An activation
may be queued more than once, but its serial is that of no other.
-/
structure Backed (agenda : Agenda) : Prop where
  own : ∀ key a, agenda.find? key = some a → a.key = key
  queued : ∀ key a, agenda.find? key = some a → ∃ e ∈ agenda.queue, e.activation = a
  sorted : Sorted agenda.queue
  identified : ∀ e ∈ agenda.queue, ∀ e' ∈ agenda.queue,
    e.activation.serial = e'.activation.serial → e.activation = e'.activation

namespace Backed

variable {agenda : Agenda} (h : agenda.Backed)

include h

theorem isLive_iff {e : Entry} (he : e ∈ agenda.queue) :
    agenda.isLive e.activation = true ↔ agenda.find? e.activation.key = some e.activation := by
  unfold isLive
  cases hfound : agenda.find? e.activation.key with
  | none => simp
  | some a =>
    rw [Option.any_some, decide_eq_true_eq, Option.some.injEq]
    constructor
    . intro hserial
      obtain ⟨e', he', rfl⟩ := h.queued _ a hfound
      exact h.identified e' he' e he hserial
    . intro heq
      rw [heq]

theorem queued_skipStale {key : ActivationKey} {b : Activation} (hb : agenda.find? key = some b) :
    ∃ e ∈ agenda.skipStale agenda.queue, e.activation = b := by
  obtain ⟨skipped, hqueue, hskipped, -⟩ := skipStale_cases agenda agenda.queue
  obtain ⟨e, he, rfl⟩ := h.queued key b hb
  refine ⟨e, ?_, rfl⟩
  have hlive := (h.isLive_iff he).mpr (by rw [h.own key _ hb, hb])
  rw [hqueue, List.mem_append] at he
  rcases he with he | he
  . rw [hskipped e he] at hlive
    cases hlive
  . exact he

theorem find?_of_skipStale_nil (hrest : agenda.skipStale agenda.queue = []) (key : ActivationKey) :
    agenda.find? key = none := by
  cases hfound : agenda.find? key with
  | none => rfl
  | some b =>
    obtain ⟨e, he, -⟩ := h.queued_skipStale hfound
    rw [hrest] at he
    cases he

theorem first_of_skipStale {e : Entry} {es : List Entry}
    (hrest : agenda.skipStale agenda.queue = e :: es) :
    agenda.find? e.activation.key = some e.activation ∧ ∀ key b, agenda.find? key = some b →
      (e.activation.sortKey.compare b.sortKey).isLE = true := by
  have hsublist := skipStale_sublist agenda agenda.queue
  obtain ⟨-, -, -, hhead⟩ := skipStale_cases agenda agenda.queue
  rw [hrest] at hsublist hhead
  refine ⟨(h.isLive_iff (hsublist.subset (by simp))).mp (hhead e rfl), ?_⟩
  intro key b hb
  obtain ⟨other, hother, rfl⟩ := h.queued_skipStale hb
  rw [hrest] at hother
  rcases List.mem_cons.mp hother with rfl | hother
  . rw [SortKey.compare_self]
    rfl
  . have hnot := (List.pairwise_cons.mp (h.sorted.sublist hsublist)).1 other hother
    rw [Ordering.isLE_iff_ne_gt]
    intro hgt
    rw [Bool.eq_false_iff, ne_eq, Entry.before_iff] at hnot
    exact hnot (.inl (Std.OrientedCmp.gt_iff_lt.mp hgt))

end Backed

/--
Everything that is pending stands in the queue under a serial of its own, and the queue is in the order of
selection. All serials are below a bound.
-/
structure Orderly (agenda : Agenda) (bound : Nat) : Prop where
  own : ∀ key a, agenda.find? key = some a → a.key = key
  queued : ∀ key a, agenda.find? key = some a → ∃ e ∈ agenda.queue, e.activation = a
  sorted : Sorted agenda.queue
  serials : (agenda.queue.map (·.activation.serial)).Nodup
  fresh : ∀ e ∈ agenda.queue, e.activation.serial < bound

theorem orderly_empty : Orderly {} 0 := by
  refine ⟨?_, ?_, .nil, .nil, ?_⟩
  . intro key a h
    cases h
  . intro key a h
    cases h
  . intro e he
    cases he

namespace Orderly

variable {agenda : Agenda} {bound : Nat} (h : agenda.Orderly bound)

include h

theorem offer {a : Activation} (hserial : a.serial = bound) :
    (agenda.offer a).Orderly (bound + 1) := by
  have hperm := enqueue_perm ⟨a, agenda.counter⟩ agenda.queue
  refine ⟨?_, ?_, sorted_enqueue h.sorted _, ?_, ?_⟩
  . intro key b hb
    rw [find?_offer] at hb
    split at hb
    . next hkey => rw [← Option.some.inj hb, hkey]
    . exact h.own key b hb
  . intro key b hb
    rw [find?_offer] at hb
    split at hb
    . exact ⟨⟨a, agenda.counter⟩, mem_enqueue.mpr (.inl rfl), Option.some.inj hb⟩
    . obtain ⟨e, he, heq⟩ := h.queued key b hb
      exact ⟨e, mem_enqueue.mpr (.inr he), heq⟩
  . change ((enqueue ⟨a, agenda.counter⟩ agenda.queue).map (·.activation.serial)).Nodup
    rw [List.Perm.nodup_iff (hperm.map _), List.map_cons, List.nodup_cons]
    refine ⟨?_, h.serials⟩
    intro hmem
    obtain ⟨e, he, heq⟩ := List.mem_map.mp hmem
    have hlt := h.fresh e he
    simp only at heq
    omega
  . intro e he
    rcases mem_enqueue.mp he with rfl | he
    . simp only
      omega
    . have hlt := h.fresh e he
      omega

theorem withdraw (key : ActivationKey) : (agenda.withdraw key).1.Orderly bound := by
  refine ⟨?_, ?_, h.sorted, h.serials, h.fresh⟩
  . intro other a ha
    rw [find?_withdraw] at ha
    split at ha
    . cases ha
    . exact h.own other a ha
  . intro other a ha
    rw [find?_withdraw] at ha
    split at ha
    . cases ha
    . exact h.queued other a ha

theorem backed : agenda.Backed := by
  refine ⟨h.own, h.queued, h.sorted, ?_⟩
  intro e he e' he' hserial
  rw [List.inj_on_of_nodup_map h.serials he he' hserial]

/-- What a selection does: it takes the least of what is pending, if there is anything. -/
inductive Selects (agenda : Agenda) (bound : Nat) : Agenda × Option Activation → Prop where
  | idle (agenda' : Agenda) (hnone : ∀ key, agenda.find? key = none)
      (hentries : ∀ key, agenda'.find? key = none) (horderly : agenda'.Orderly bound) :
      Selects agenda bound (agenda', none)
  | next (agenda' : Agenda) (a : Activation) (hpending : agenda.find? a.key = some a)
      (hleast : ∀ key b, agenda.find? key = some b → (a.sortKey.compare b.sortKey).isLE = true)
      (hentries : ∀ key, agenda'.find? key = if key = a.key then none else agenda.find? key)
      (horderly : agenda'.Orderly bound) : Selects agenda bound (agenda', some a)

theorem select : Selects agenda bound agenda.select := by
  unfold Agenda.select
  cases hrest : agenda.skipStale agenda.queue with
  | nil =>
    have hnone := h.backed.find?_of_skipStale_nil hrest
    apply Selects.idle { agenda with queue := [] } hnone hnone
    refine ⟨h.own, ?_, .nil, .nil, ?_⟩
    . intro key a ha
      change agenda.find? key = some a at ha
      rw [hnone] at ha
      cases ha
    . intro e he
      cases he
  | cons e es =>
    obtain ⟨hpending, hleast⟩ := h.backed.first_of_skipStale hrest
    have hsublist : es.Sublist agenda.queue := by
      have hkept := skipStale_sublist agenda agenda.queue
      rw [hrest] at hkept
      exact (List.sublist_cons_self e es).trans hkept
    have hentries : ∀ key, (drop e.activation.key agenda.entries).lookup key
        = if key = e.activation.key then none else agenda.find? key :=
      lookup_drop e.activation.key agenda.entries
    apply Selects.next { agenda with queue := es, entries := drop e.activation.key agenda.entries }
      e.activation hpending hleast hentries
    refine ⟨?_, ?_, h.sorted.sublist hsublist, (hsublist.map _).nodup h.serials,
      fun other hother => h.fresh other (hsublist.subset hother)⟩
    . intro key a ha
      change (drop e.activation.key agenda.entries).lookup key = some a at ha
      rw [hentries] at ha
      split at ha
      . cases ha
      . exact h.own key a ha
    . intro key a ha
      change (drop e.activation.key agenda.entries).lookup key = some a at ha
      rw [hentries] at ha
      split at ha
      . cases ha
      . next hne =>
        obtain ⟨other, hother, rfl⟩ := h.backed.queued_skipStale ha
        rw [hrest] at hother
        rcases List.mem_cons.mp hother with rfl | hother
        . exact absurd (h.own key _ ha).symm hne
        . exact ⟨other, hother, rfl⟩

end Orderly

theorem size_eq_zero_iff {agenda : Agenda} :
    agenda.size = 0 ↔ ∀ key, agenda.find? key = none := by
  unfold size find?
  rw [List.length_eq_zero_iff]
  constructor
  . intro heq key
    rw [heq]
    rfl
  . intro hnone
    cases hentries : agenda.entries with
    | nil => rfl
    | cons entry entries =>
      have hfirst := hnone entry.1
      rw [hentries, List.lookup_cons_self] at hfirst
      cases hfirst

end Agenda
end ForwardChaining
