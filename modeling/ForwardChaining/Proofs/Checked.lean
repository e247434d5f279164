import ForwardChaining.Checked

/-!
This module contains when a result that collects all problems is there: when every part of it is. Where
there is none, there is a problem.
-/

namespace ForwardChaining.Checked

@[simp]
theorem map_eq_ok {x : Checked ε α} {f : α → β} {b : β} :
    x.map f = .ok b ↔ ∃ a, x = .ok a ∧ f a = b := by
  cases x <;> simp [map]

@[simp]
theorem apply_eq_ok {f : Checked ε (α → β)} {x : Checked ε α} {b : β} :
    apply f x = .ok b ↔ ∃ g a, f = .ok g ∧ x = .ok a ∧ g a = b := by
  cases f <;> cases x <;> simp [apply]

@[simp]
theorem functorMap_eq_ok {f : α → β} {x : Checked ε α} {b : β} :
    f <$> x = .ok b ↔ ∃ a, x = .ok a ∧ f a = b := by
  change apply (.ok f) x = .ok b ↔ _
  simp

@[simp]
theorem seq_eq_ok {f : Checked ε (α → β)} {x : Checked ε α} {b : β} :
    f <*> x = .ok b ↔ ∃ g a, f = .ok g ∧ x = .ok a ∧ g a = b :=
  apply_eq_ok

@[simp]
theorem andThen_eq_ok {x : Checked ε α} {f : α → Checked ε β} {b : β} :
    x.andThen f = .ok b ↔ ∃ a, x = .ok a ∧ f a = .ok b := by
  cases x <;> simp [andThen]

@[simp]
theorem fail_ne_ok {problem : ε} {a : α} : fail problem ≠ .ok a := by
  simp [fail]

theorem all_cons_eq_ok {x : Checked ε α} {xs : List (Checked ε α)} {as : List α} :
    all (x :: xs) = .ok as ↔ ∃ a rest, x = .ok a ∧ all xs = .ok rest ∧ a :: rest = as := by
  simp only [all, apply_eq_ok, map_eq_ok]
  constructor
  . rintro ⟨-, rest, ⟨a, ha, rfl⟩, hrest, heq⟩
    exact ⟨a, rest, ha, hrest, heq⟩
  . rintro ⟨a, rest, ha, hrest, heq⟩
    exact ⟨_, rest, ⟨a, ha, rfl⟩, hrest, heq⟩

section All

variable {f : α → Checked ε β} {as : List α} {bs : List β} (h : all (as.map f) = .ok bs)

include h

theorem exists_of_all_map {b : β} (hb : b ∈ bs) : ∃ a ∈ as, f a = .ok b := by
  induction as generalizing bs with
  | nil =>
    cases h
    simp at hb
  | cons a as ih =>
    rw [List.map_cons, all_cons_eq_ok] at h
    obtain ⟨first, rest, hfirst, hrest, rfl⟩ := h
    rcases List.mem_cons.mp hb with rfl | hb
    . exact ⟨a, by simp, hfirst⟩
    . obtain ⟨a', ha', hb'⟩ := ih hrest hb
      exact ⟨a', by simp [ha'], hb'⟩

theorem forall_of_all_map : ∀ a ∈ as, ∃ b, f a = .ok b := by
  induction as generalizing bs with
  | nil => simp
  | cons a as ih =>
    rw [List.map_cons, all_cons_eq_ok] at h
    obtain ⟨first, rest, hfirst, hrest, -⟩ := h
    rw [List.forall_mem_cons]
    exact ⟨⟨first, hfirst⟩, ih hrest⟩

end All

/-- There is a result. -/
def Succeeds (x : Checked ε α) : Prop :=
  ∃ a, x = .ok a

instance decidableSucceeds : (x : Checked ε α) → Decidable x.Succeeds
  | .ok a => .isTrue ⟨a, rfl⟩
  | .failed _ => .isFalse nofun

@[simp]
theorem succeeds_ok {a : α} : (ok a : Checked ε α).Succeeds :=
  ⟨a, rfl⟩

@[simp]
theorem not_succeeds_fail {problem : ε} : ¬ (fail problem : Checked ε α).Succeeds := by
  rintro ⟨a, ha⟩
  exact fail_ne_ok ha

@[simp]
theorem succeeds_map {x : Checked ε α} {f : α → β} : (x.map f).Succeeds ↔ x.Succeeds := by
  cases x <;> simp [map, Succeeds]

@[simp]
theorem succeeds_apply {f : Checked ε (α → β)} {x : Checked ε α} :
    (apply f x).Succeeds ↔ f.Succeeds ∧ x.Succeeds := by
  cases f <;> cases x <;> simp [apply, Succeeds]

@[simp]
theorem succeeds_functorMap {f : α → β} {x : Checked ε α} : (f <$> x).Succeeds ↔ x.Succeeds := by
  change (apply (.ok f) x).Succeeds ↔ _
  simp

@[simp]
theorem succeeds_seq {f : Checked ε (α → β)} {x : Checked ε α} :
    (f <*> x).Succeeds ↔ f.Succeeds ∧ x.Succeeds :=
  succeeds_apply

theorem succeeds_andThen_of {x : Checked ε α} {f : α → Checked ε β} {p : Prop}
    (h : ∀ a, (f a).Succeeds ↔ p) : (x.andThen f).Succeeds ↔ x.Succeeds ∧ p := by
  cases x with
  | ok a => simpa [andThen] using h a
  | failed problems => simp [andThen, Succeeds]

theorem succeeds_all_map {f : α → Checked ε β} {as : List α} :
    (all (as.map f)).Succeeds ↔ ∀ a ∈ as, (f a).Succeeds := by
  induction as with
  | nil => simp [all]
  | cons a as ih => simp [all, ih]

/-- There is a result, or a problem that says why there is none. -/
def Explained (x : Checked ε α) : Prop :=
  x ≠ .failed []

namespace Explained

theorem succeeds_or {x : Checked ε α} (h : x.Explained) :
    x.Succeeds ∨ ∃ problems, problems ≠ [] ∧ x = .failed problems := by
  cases x with
  | ok a => exact .inl ⟨a, rfl⟩
  | failed problems => exact .inr ⟨problems, fun heq => h (congrArg _ heq), rfl⟩

theorem ok (a : α) : (ok a : Checked ε α).Explained :=
  nofun

theorem fail (problem : ε) : (fail problem : Checked ε α).Explained := by
  simp [Explained, Checked.fail]

theorem map {x : Checked ε α} (h : x.Explained) (f : α → β) : (x.map f).Explained := by
  cases x <;> simp_all [Explained, Checked.map]

theorem apply {f : Checked ε (α → β)} {x : Checked ε α} (hf : f.Explained) (hx : x.Explained) :
    (apply f x).Explained := by
  cases f <;> cases x <;> simp_all [Explained, Checked.apply]

theorem functorMap {x : Checked ε α} (h : x.Explained) (f : α → β) : (f <$> x).Explained :=
  (ok f).apply h

theorem seq {f : Checked ε (α → β)} {x : Checked ε α} (hf : f.Explained) (hx : x.Explained) :
    (f <*> x).Explained :=
  hf.apply hx

theorem andThen {x : Checked ε α} {f : α → Checked ε β} (hx : x.Explained)
    (hf : ∀ a, (f a).Explained) : (x.andThen f).Explained := by
  cases x with
  | ok a => exact hf a
  | failed problems => simpa [Explained, Checked.andThen] using hx

theorem ite {c : Prop} [Decidable c] {x y : Checked ε α} (hx : x.Explained) (hy : y.Explained) :
    (if c then x else y).Explained := by
  split
  . exact hx
  . exact hy

theorem all {xs : List (Checked ε α)} (h : ∀ x ∈ xs, x.Explained) : (all xs).Explained := by
  induction xs with
  | nil => exact ok []
  | cons x xs ih =>
    rw [List.forall_mem_cons] at h
    exact (h.1.map List.cons).apply (ih h.2)

end Explained
end ForwardChaining.Checked
