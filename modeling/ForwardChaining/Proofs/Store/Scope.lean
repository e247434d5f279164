import ForwardChaining.Proofs.Rule.Scope
import ForwardChaining.Proofs.Store.Filing

/-!
This module contains when an operation on facts is refused because a type or a field is not declared: never,
if the fields that it writes are declared by the type of the fact that it writes them to. What a fact holds
already has been accepted before.
-/

namespace ForwardChaining

/-- A variable is not bound, or a type or a field of it is not declared. -/
def Fault.OutOfScope : Fault → Prop
  | .missingKey (.text _) | .unknownFactType .. => True
  | _ => False

theorem lookUp_text {entries : List (String × α)} {name : String} {a : α}
    (h : entries.lookup name = some a) : lookUp entries (.text name) = .ok a := by
  unfold lookUp
  dsimp only
  rw [h]
  rfl

/-! ### Keys -/

theorem Fields.requireFree_failsWith (fields : Fields) (callee : String) (reserved : List String) :
    FailsWith (fun fault => ¬ fault.OutOfScope) (fields.requireFree callee reserved) := by
  unfold requireFree
  split
  . exact .error id
  . exact .ok ()

theorem Entries.forall_set {P : Value → Prop} {entries : Entries} (h : ∀ entry ∈ entries, P entry.1)
    {key : Value} (hkey : P key) (x : Value) : ∀ entry ∈ entries.set key x, P entry.1 := by
  induction entries with
  | nil => simpa [set] using hkey
  | cons entry entries ih =>
    rw [List.forall_mem_cons] at h
    unfold set
    split
    . exact List.forall_mem_cons.mpr ⟨h.1, h.2⟩
    . exact List.forall_mem_cons.mpr ⟨h.1, ih h.2⟩

theorem Entries.forall_merge {P : Value → Prop} {entries changes : Entries}
    (hentries : ∀ entry ∈ entries, P entry.1) (hchanges : ∀ entry ∈ changes, P entry.1) :
    ∀ entry ∈ entries.merge changes, P entry.1 := by
  unfold merge
  induction changes generalizing entries with
  | nil => exact hentries
  | cons change changes ih =>
    rw [List.forall_mem_cons] at hchanges
    exact ih (forall_set hentries hchanges.1 change.2) hchanges.2

theorem Entries.forall_ofFields {P : Value → Prop} {fields : Fields}
    (h : ∀ entry ∈ fields, P (.text entry.1)) : ∀ entry ∈ ofFields fields, P entry.1 := by
  unfold ofFields
  rw [List.forall_mem_map]
  exact h

namespace FactTable

variable {table : FactTable} {types : List FactType}

theorem requireDeclared_eq_ok (hdeclared : table.declared = some types) {type : String}
    {declaration : FactType} (hdeclaration : declaration? types (.text type) = some declaration)
    {data : Entries} (haccepts : ∀ entry ∈ data, declaration.accepts entry.1 = true) :
    table.requireDeclared (.text type) data = .ok () := by
  have hnone : ((data.map (·.1)).filter (!declaration.accepts ·)) = [] := by
    rw [List.filter_eq_nil_iff, List.forall_mem_map]
    intro entry hentry
    simp [haccepts entry hentry]
  have hrequire : declaration.requireAccepted data = .ok () := by
    unfold FactType.requireAccepted
    rw [hnone]
    rfl
  unfold requireDeclared
  rw [hdeclared]
  dsimp only
  rw [hdeclaration]
  exact hrequire

theorem get_failsWith (table : FactTable) (ref : Value) :
    FailsWith (fun fault => ¬ fault.OutOfScope) (table.get ref) := by
  have hhash : FailsWith (fun fault => ¬ fault.OutOfScope) ref.requireHash := by
    unfold Value.requireHash
    split
    . exact .error id
    . exact .ok ()
  refine .bind (hhash.bind fun _ _ => .ok _) fun found _ => ?_
  split
  . exact .ok _
  . split <;> exact .error id

theorem retract_failsWith (table : FactTable) (ref : Value) :
    FailsWith (fun fault => ¬ fault.OutOfScope) (table.retract ref).2 := by
  unfold retract
  split
  . next fault hget => exact .error (table.get_failsWith ref fault hget)
  . exact .ok _

section Declared

variable (hnames : (types.map (·.name)).Nodup) (hdeclared : table.declared = some types)

include hnames hdeclared

theorem insert_ok {type : String} {declaration : FactType}
    (hdeclaration : Declarations.find types type = some declaration) {data : Entries}
    (haccepts : ∀ entry ∈ data, declaration.accepts entry.1 = true) :
    ∃ fact, (table.insert (.text type) data).2 = .ok fact := by
  have haccepted := requireDeclared_eq_ok hdeclared
    (by rw [Declarations.declaration?_eq hnames, hdeclaration]) haccepts
  unfold insert
  rw [haccepted]
  exact ⟨_, rfl⟩

/-- The new data of a live fact is accepted if the type of the fact declares the fields that are put. -/
theorem update_declared (htidy : table.Tidy) {ref : Value} {previous : Fact}
    (hprevious : table.get ref = .ok previous) {changes : Fields}
    (hfields : ∀ change ∈ changes, Declarations.hasField types previous.type change.1 = true) :
    ∃ fact : Fact, fact = { previous with
        data := Entries.merge previous.data (Entries.ofFields changes)
        version := previous.version + 1
        recency := table.clock + 1 }
      ∧ table.update ref (Entries.merge previous.data (Entries.ofFields changes))
        = ({ table with live := replace fact table.live, clock := table.clock + 1 },
          .ok (fact, previous)) := by
  -- what the fact holds already was accepted when it was put
  obtain ⟨declaration, hdeclaration, hkeys⟩ := htidy.declared hdeclared (mem_of_get hprevious)
  have hfind := hdeclaration
  rw [Declarations.declaration?_eq hnames] at hfind
  have haccepts : ∀ entry ∈ Entries.merge previous.data (Entries.ofFields changes),
      declaration.accepts entry.1 = true := by
    refine Entries.forall_merge (P := (declaration.accepts · = true)) hkeys ?_
    refine Entries.forall_ofFields (P := (declaration.accepts · = true)) fun change hchange => ?_
    rw [← Declarations.hasField_of_find hfind]
    exact hfields change hchange
  refine ⟨_, rfl, ?_⟩
  unfold update
  rw [hprevious]
  dsimp only
  rw [requireDeclared_eq_ok hdeclared hdeclaration haccepts]

theorem update_failsWith (htidy : table.Tidy) {ref : Value} {previous : Fact}
    (hprevious : table.get ref = .ok previous) {changes : Fields}
    (hfields : ∀ change ∈ changes, Declarations.hasField types previous.type change.1 = true) :
    FailsWith (fun fault => ¬ fault.OutOfScope)
      (table.update ref (Entries.merge previous.data (Entries.ofFields changes))).2 := by
  obtain ⟨fact, -, hupdate⟩ := update_declared hnames hdeclared htidy hprevious hfields
  rw [hupdate]
  exact .ok _

end Declared

end FactTable

namespace Store

variable {σ : Type} {store : Store σ}

section Declared

variable {types : List FactType} (hdepth : store.depth ≠ 0)

include hdepth

theorem retract_failsWith (ref : Value) :
    FailsWith (fun fault => ¬ fault.OutOfScope) (store.retract ref).2 := by
  have htable := store.table.retract_failsWith ref
  unfold retract
  split
  . next heq => exact .error (htable _ (congrArg Prod.snd heq))
  . rw [publish_deferred (by exact hdepth)]
    exact .ok _

variable (hnames : (types.map (·.name)).Nodup) (hdeclared : store.table.declared = some types)

include hnames hdeclared

theorem insert_ok {type : String} {declaration : FactType}
    (hdeclaration : Declarations.find types type = some declaration) {data : Fields}
    (haccepts : ∀ entry ∈ data, declaration.accepts (.text entry.1) = true) :
    ∃ id, (store.insert (.text type) (.record data)).2 = .ok id := by
  obtain ⟨entries, hentries, hkeys⟩ : ∃ entries, (Value.record data).toEntriesOrEmpty = .ok entries
      ∧ ∀ entry ∈ entries, declaration.accepts entry.1 = true := by
    unfold Value.toEntriesOrEmpty
    split
    . exact ⟨_, rfl, Entries.forall_ofFields (P := (declaration.accepts · = true)) haccepts⟩
    . exact ⟨[], rfl, by simp⟩
  obtain ⟨fact, hfact⟩ := FactTable.insert_ok hnames hdeclared hdeclaration hkeys
  unfold insert
  rw [hentries]
  dsimp only
  split
  . next heq => simp [heq] at hfact
  . exact ⟨_, by rw [publish_deferred (by exact hdepth)]⟩

theorem modify_failsWith (htidy : store.table.Tidy) {ref : Value} {changes : Fields}
    (hfields : ∀ previous, store.table.get ref = .ok previous →
      ∀ change ∈ changes, Declarations.hasField types previous.type change.1 = true) :
    FailsWith (fun fault => ¬ fault.OutOfScope) (store.modify ref changes).2 := by
  unfold modify
  split
  . next fault hfree => exact .error (changes.requireFree_failsWith _ _ fault hfree)
  split
  . next fault hget => exact .error (store.table.get_failsWith ref fault hget)
  next previous hprevious =>
  have hupdate := FactTable.update_failsWith hnames hdeclared htidy hprevious
    (hfields previous hprevious)
  unfold replaceData
  split
  . next heq => exact .error (hupdate _ (congrArg Prod.snd heq))
  . rw [publish_deferred (by exact hdepth)]
    exact .ok _

end Declared

end Store
end ForwardChaining
