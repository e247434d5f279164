import ForwardChaining.Proofs.Value.Sameness

/-!
This module contains the laws of tables under keys: what is found under a key after an entry was put
there or dropped. They hold for frozen keys, of which the table has no two that are the same.
-/

namespace ForwardChaining

theorem lookup_eq_some_iff_mem [BEq κ] [LawfulBEq κ] {entries : List (κ × α)}
    (h : (entries.map (·.1)).Nodup) (key : κ) (a : α) :
    entries.lookup key = some a ↔ (key, a) ∈ entries := by
  rw [List.lookup_eq_some_iff]
  constructor
  . rintro ⟨before, after, rfl, -⟩
    simp
  . intro hmem
    obtain ⟨before, after, rfl⟩ := List.append_of_mem hmem
    refine ⟨before, after, rfl, ?_⟩
    rintro entry hentry
    rw [List.map_append, List.nodup_append] at h
    have hne := h.2.2 entry.1 (List.mem_map_of_mem hentry) key (by simp)
    simpa using hne.symm

namespace Key

/-- All values of the key are frozen. -/
def Frozen (key : Key) : Prop :=
  ∀ x ∈ key, x.Frozen

theorem same_iff (a b : Key) : same a b = true ↔ List.Forall₂ (fun x y => x.same y = true) a b :=
  Value.sameItems_iff a b

namespace Frozen

theorem same_refl {a : Key} (ha : a.Frozen) : same a a = true :=
  (same_iff a a).mpr (List.forall₂_same.mpr fun x hx => (ha x hx).same_refl)

theorem same_symm {a b : Key} (ha : a.Frozen) (hb : b.Frozen) (h : same a b = true) :
    same b a = true := by
  rw [same_iff] at h ⊢
  exact Value.forall₂_symm_of_mem (fun x hx y hy => (ha x hx).same_symm y (hb y hy)) h

theorem same_comm {a b : Key} (ha : a.Frozen) (hb : b.Frozen) : same a b = same b a :=
  Bool.eq_iff_iff.mpr ⟨ha.same_symm hb, hb.same_symm ha⟩

end Frozen

theorem same_trans {a b c : Key} (hab : same a b = true) (hbc : same b c = true) :
    same a c = true :=
  Value.sameItems_trans (fun x _ => Value.same_trans x) hab hbc

theorem same_congr_left {a b c : Key} (ha : a.Frozen) (hb : b.Frozen) (hab : same a b = true) :
    same a c = same b c :=
  Bool.eq_iff_iff.mpr ⟨same_trans (ha.same_symm hb hab), same_trans hab⟩

theorem same_congr_right {a b c : Key} (ha : a.Frozen) (hb : b.Frozen) (hab : same a b = true) :
    same c a = same c b :=
  Bool.eq_iff_iff.mpr ⟨(same_trans · hab), (same_trans · (ha.same_symm hb hab))⟩

attribute [local simp] find? insert erase

/-- The keys of the table are frozen, and no two of them are the same. -/
structure Table (entries : List (Key × α)) : Prop where
  frozen : ∀ entry ∈ entries, entry.1.Frozen
  apart : entries.Pairwise fun a b => same a.1 b.1 = false

namespace Table

theorem nil : Table ([] : List (Key × α)) :=
  ⟨by simp, .nil⟩

theorem head {entry : Key × α} {entries : List (Key × α)} (h : Table (entry :: entries)) :
    entry.1.Frozen :=
  h.frozen entry (by simp)

theorem tail {entry : Key × α} {entries : List (Key × α)} (h : Table (entry :: entries)) :
    Table entries :=
  ⟨fun e he => h.frozen e (by simp [he]), (List.pairwise_cons.mp h.apart).2⟩

theorem mem_insert {key : Key} {a : α} {entries : List (Key × α)} {entry : Key × α}
    (h : entry ∈ Key.insert key a entries) :
    entry.1 = key ∨ ∃ b, (entry.1, b) ∈ entries := by
  induction entries with
  | nil =>
    simp only [Key.insert, List.mem_singleton] at h
    exact .inl (by rw [h])
  | cons first entries ih =>
    simp only [Key.insert] at h
    split at h
    . rcases List.mem_cons.mp h with h | h
      . exact .inr ⟨first.2, by simp [h]⟩
      . exact .inr ⟨entry.2, by simp [h]⟩
    . rcases List.mem_cons.mp h with h | h
      . exact .inr ⟨first.2, by simp [h]⟩
      . exact (ih h).imp id fun ⟨b, hb⟩ => ⟨b, List.mem_cons_of_mem _ hb⟩

theorem mem_of_mem_erase {key : Key} {entries : List (Key × α)} {entry : Key × α}
    (h : entry ∈ Key.erase key entries) : entry ∈ entries := by
  induction entries with
  | nil => simp at h
  | cons first entries ih =>
    simp only [Key.erase] at h
    split at h
    . exact List.mem_cons_of_mem _ h
    . rcases List.mem_cons.mp h with h | h
      . simp [h]
      . exact List.mem_cons_of_mem _ (ih h)

theorem insert {key : Key} (hkey : key.Frozen) (a : α) {entries : List (Key × α)}
    (h : Table entries) : Table (Key.insert key a entries) := by
  induction entries with
  | nil => exact ⟨by simpa using hkey, by simp⟩
  | cons first entries ih =>
    have hapart := List.pairwise_cons.mp h.apart
    simp only [Key.insert]
    split
    . exact ⟨List.forall_mem_cons.mpr ⟨h.head, h.tail.frozen⟩, List.pairwise_cons.mpr hapart⟩
    . next hne =>
      refine ⟨List.forall_mem_cons.mpr ⟨h.head, (ih h.tail).frozen⟩,
        List.pairwise_cons.mpr ⟨?_, (ih h.tail).apart⟩⟩
      intro entry hentry
      rcases mem_insert hentry with heq | ⟨b, hb⟩
      . rw [heq]
        exact Bool.eq_false_iff.mpr hne
      . exact hapart.1 (entry.1, b) hb

theorem erase {key : Key} {entries : List (Key × α)} (h : Table entries) :
    Table (Key.erase key entries) := by
  induction entries with
  | nil => exact nil
  | cons first entries ih =>
    have hapart := List.pairwise_cons.mp h.apart
    simp only [Key.erase]
    split
    . exact h.tail
    . exact ⟨List.forall_mem_cons.mpr ⟨h.head, (ih h.tail).frozen⟩,
        List.pairwise_cons.mpr ⟨fun e he => hapart.1 e (mem_of_mem_erase he), (ih h.tail).apart⟩⟩

theorem find?_insert {key other : Key} (hkey : key.Frozen) (hother : other.Frozen) (a : α)
    {entries : List (Key × α)} (h : Table entries) :
    find? other (Key.insert key a entries)
      = if same key other then some a else find? other entries := by
  induction entries with
  | nil => simp
  | cons first entries ih =>
    simp only [Key.insert]
    split
    . next hsame =>
      simp only [find?, same_congr_left h.head hkey hsame]
      split <;> rfl
    . next hne =>
      simp only [find?, ih h.tail]
      split
      . next hfirst =>
        split
        . next hsame =>
          exact absurd (same_trans hfirst (hkey.same_symm hother hsame)) hne
        . rfl
      . rfl

theorem find?_eq_none {key other : Key} (hkey : key.Frozen) (hother : other.Frozen)
    (hsame : same key other = true) {entries : List (Key × α)}
    (hfrozen : ∀ entry ∈ entries, entry.1.Frozen)
    (h : ∀ entry ∈ entries, same key entry.1 = false) : find? other entries = none := by
  induction entries with
  | nil => rfl
  | cons first entries ih =>
    have hfirst := hfrozen first (by simp)
    have hne : same first.1 other = false := by
      rw [hfirst.same_comm hother, ← same_congr_left hkey hother hsame]
      exact h first (by simp)
    simp only [find?, hne, Bool.false_eq_true, if_false]
    exact ih (fun e he => hfrozen e (by simp [he])) fun e he => h e (by simp [he])

theorem find?_erase {key other : Key} (hkey : key.Frozen) (hother : other.Frozen)
    {entries : List (Key × α)} (h : Table entries) :
    find? other (Key.erase key entries)
      = if same key other then none else find? other entries := by
  induction entries with
  | nil => simp
  | cons first entries ih =>
    simp only [Key.erase]
    split
    . next hsame =>
      simp only [find?, same_congr_left h.head hkey hsame]
      split
      . next hother' =>
        apply find?_eq_none h.head hother
        . rw [same_congr_left h.head hkey hsame]
          exact hother'
        . exact h.tail.frozen
        . exact (List.pairwise_cons.mp h.apart).1
      . rfl
    . next hne =>
      simp only [find?, ih h.tail]
      split
      . next hfirst =>
        split
        . next hsame =>
          exact absurd (same_trans hfirst (hkey.same_symm hother hsame)) hne
        . rfl
      . rfl

theorem find?_congr {key other : Key} (hkey : key.Frozen) (hother : other.Frozen)
    (hsame : same key other = true) {entries : List (Key × α)} :
    find? key entries = find? other entries := by
  induction entries with
  | nil => rfl
  | cons first entries ih =>
    simp only [find?, same_congr_right hkey hother hsame, ih]

end Table
end Key
end ForwardChaining
