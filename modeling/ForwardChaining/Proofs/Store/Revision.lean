import ForwardChaining.Proofs.Store.Scope

/-!
This module contains what it is for a live fact to get a new version in which one field is replaced: the
field holds the new value, and everything else about the fact, the store and the other facts is as it was.
-/

namespace ForwardChaining

theorem Value.same_text_right {k : Value} {field : String} :
    k.same (.text field) = true ↔ k = .text field := by
  cases k <;> simp [same, number?]

theorem Value.text_same {k : Value} {field : String} :
    (Value.text field).same k = true ↔ k = .text field := by
  cases k <;> simp [same]
  exact eq_comm

theorem Entries.get?_set_of_ne (entries : Entries) {field : String} (x : Value) {key : Value}
    (hne : key ≠ .text field) : (entries.set (.text field) x).get? key = entries.get? key := by
  have hother : ¬ (Value.text field).same key = true := fun h => hne (Value.text_same.mp h)
  induction entries with
  | nil => simp only [set, get?, if_neg hother]
  | cons entry entries ih =>
    obtain ⟨k, y⟩ := entry
    unfold set
    split
    . next hsame =>
      obtain rfl := Value.same_text_right.mp hsame
      simp only [get?, if_neg hother]
    . simp only [get?, ih]

/-- The fact is the next version of the old one, with one field replaced and all else as it was. -/
structure Fact.Replaces (new old : Fact) (field : String) (x : Value) : Prop where
  id : new.id = old.id
  type : new.type = old.type
  version : new.version = old.version + 1
  put : new.data.get? (.text field) = some x
  others : ∀ key, key ≠ .text field → new.data.get? key = old.data.get? key

/-- Names that fields cannot have when they are changed by name: the calls use them for their own arguments. -/
def reservedFields : List String :=
  ["self", "target", "fact_id"]

namespace Store

variable {σ : Type}

/-- The store in which a live fact has been replaced by a new version, and the change is queued. -/
def revise (store : Store σ) (new old : Fact) : Store σ :=
  { store with
    table := { store.table with
      live := FactTable.replace new store.table.live
      clock := store.table.clock + 1 }
    pending := store.pending ++ [.updated new old] }

theorem modify_fact_id (store : Store σ) (ref x : Value) :
    store.modify ref [("fact_id", x)] = (store, .error (.repeatedArgument "FactStore.modify" "fact_id")) :=
  rfl

theorem modify_revises {store : Store σ} (hdepth : store.depth ≠ 0) {types : List FactType}
    (hnames : (types.map (·.name)).Nodup) (hdeclared : store.table.declared = some types)
    (htidy : store.table.Tidy) {ref : Value} {old : Fact} (hold : store.table.get ref = .ok old)
    {field : String} (hfield : Declarations.hasField types old.type field = true)
    (hfree : field ∉ reservedFields) (x : Value) :
    ∃ new : Fact, new.Replaces old field x ∧ new.recency = store.table.clock + 1
      ∧ store.modify ref [(field, x)] = (store.revise new old, .ok new) := by
  have hfields : ∀ change ∈ [(field, x)], Declarations.hasField types old.type change.1 = true := by
    simpa using hfield
  obtain ⟨new, hnew, hupdate⟩ := FactTable.update_declared hnames hdeclared htidy hold hfields
  have hdata : new.data = old.data.set (.text field) x := by rw [hnew]; rfl
  have hreplaces : new.Replaces old field x := by
    refine ⟨by rw [hnew], by rw [hnew], by rw [hnew], ?_, fun key hkey => ?_⟩
    . rw [hdata, Entries.get?_set_self _ _ _ (Value.text_same.mpr rfl)]
    . rw [hdata, Entries.get?_set_of_ne _ _ hkey]
  refine ⟨new, hreplaces, by rw [hnew], ?_⟩
  have hrequired : Fields.requireFree [(field, x)] "FactStore.modify" ["self", "fact_id"] = .ok () := by
    simp only [reservedFields, List.mem_cons, not_or] at hfree
    simp [Fields.requireFree, hfree]
  unfold modify
  rw [hrequired, hold]
  dsimp only
  unfold replaceData
  rw [hupdate]
  exact publish_deferred (by exact hdepth) _ _

end Store
end ForwardChaining
