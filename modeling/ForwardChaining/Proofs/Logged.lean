import ForwardChaining.Logged

/-!
This module contains the laws of computations that may fail: when a sequence of them has a result, and
what the result then is; and what it can fail with, if it fails with nothing but what its parts do.
-/

namespace ForwardChaining

@[simp]
theorem bind_eq_ok {x : Except ε α} {f : α → Except ε β} {b : β} :
    x.bind f = .ok b ↔ ∃ a, x = .ok a ∧ f a = .ok b := by
  cases x <;> simp [Except.bind]

@[simp]
theorem doBind_eq_ok {x : Except ε α} {f : α → Except ε β} {b : β} :
    (x >>= f) = .ok b ↔ ∃ a, x = .ok a ∧ f a = .ok b :=
  bind_eq_ok

@[simp]
theorem map_eq_ok {x : Except ε α} {f : α → β} {b : β} :
    x.map f = .ok b ↔ ∃ a, x = .ok a ∧ f a = b := by
  cases x <;> simp [Except.map]

theorem toOption_eq_some {x : Except ε α} {a : α} : x.toOption = some a ↔ x = .ok a := by
  cases x <;> simp [Except.toOption]

theorem exists_ok_of_toOption {x : Except ε α} {f : α → β} {b : β} (h : x.toOption.map f = some b) :
    ∃ a, x = .ok a ∧ f a = b := by
  obtain ⟨a, ha, hb⟩ := Option.map_eq_some_iff.mp h
  exact ⟨a, toOption_eq_some.mp ha, hb⟩

theorem mapM_ok {f : α → Except ε β} {as : List α} (h : ∀ a ∈ as, ∃ b, f a = .ok b) :
    ∃ bs, as.mapM f = .ok bs ∧ ∀ b, b ∈ bs ↔ ∃ a ∈ as, f a = .ok b := by
  induction as with
  | nil => exact ⟨[], rfl, by simp⟩
  | cons a as ih =>
    rw [List.forall_mem_cons] at h
    obtain ⟨⟨b, hb⟩, hrest⟩ := h
    obtain ⟨bs, hbs, hiff⟩ := ih hrest
    refine ⟨b :: bs, ?_, ?_⟩
    . rw [List.mapM_cons, hb, hbs]
      rfl
    . intro other
      simp [hiff, hb, eq_comm]

theorem forall_of_mapM {f : α → Except ε β} {as : List α} {bs : List β} (h : as.mapM f = .ok bs) :
    ∀ a ∈ as, ∃ b, f a = .ok b := by
  induction as generalizing bs with
  | nil => simp
  | cons a as ih =>
    simp only [List.mapM_cons, doBind_eq_ok] at h
    obtain ⟨b, hb, rest, hrest, -⟩ := h
    rw [List.forall_mem_cons]
    exact ⟨⟨b, hb⟩, ih hrest⟩

theorem mem_of_mapM {f : α → Except ε β} {as : List α} {bs : List β} (h : as.mapM f = .ok bs) (b : β) :
    b ∈ bs ↔ ∃ a ∈ as, f a = .ok b := by
  obtain ⟨found, hfound, hmem⟩ := mapM_ok (forall_of_mapM h)
  rw [h, Except.ok.injEq] at hfound
  rw [hfound]
  exact hmem b

namespace Logged

@[simp]
theorem outcome_pure (a : α) : (pure a : Logged α).outcome = .ok a :=
  rfl

@[simp]
theorem outcome_bind (x : Logged α) (f : α → Logged β) :
    (x >>= f).outcome = x.outcome.bind fun a => (f a).outcome :=
  outcome_andThen x f

@[simp]
theorem outcome_monadLift (x : Except Fault α) : (liftM x : Logged α).outcome = x :=
  rfl

theorem outcome_gather_cons (f : α → Logged (List β)) (a : α) (as : List α) :
    (gather f (a :: as)).outcome
      = (f a).outcome.bind fun first => (gather f as).outcome.map (first ++ ·) := by
  simp only [gather, outcome_bind]
  rfl

theorem mem_of_gather {f : α → Logged (List β)} {as : List α} {bs : List β}
    (h : (gather f as).outcome = .ok bs) (b : β) :
    b ∈ bs ↔ ∃ a ∈ as, ∃ found, (f a).outcome = .ok found ∧ b ∈ found := by
  induction as generalizing bs with
  | nil =>
    cases h
    simp
  | cons a as ih =>
    rw [outcome_gather_cons] at h
    simp only [bind_eq_ok, map_eq_ok] at h
    obtain ⟨first, hfirst, rest, hrest, rfl⟩ := h
    simp [ih hrest, hfirst]

theorem gather_ok_of_forall {f : α → Logged (List β)} {as : List α}
    (h : ∀ a ∈ as, ∃ found, (f a).outcome = .ok found) :
    ∃ bs, (gather f as).outcome = .ok bs := by
  induction as with
  | nil => exact ⟨[], rfl⟩
  | cons a as ih =>
    obtain ⟨first, hfirst⟩ := h a (by simp)
    obtain ⟨rest, hrest⟩ := ih fun b hb => h b (by simp [hb])
    refine ⟨first ++ rest, ?_⟩
    rw [outcome_gather_cons, hfirst, hrest]
    rfl

end Logged

/-! ### Faults -/

/-- If there is no result, there is such a fault. -/
def FailsWith (P : ε → Prop) (x : Except ε α) : Prop :=
  ∀ fault, x = .error fault → P fault

namespace FailsWith

variable {P : ε → Prop}

theorem ok (a : α) : FailsWith P (.ok a) :=
  nofun

theorem of_ok {x : Except ε α} (h : ∃ a, x = .ok a) : FailsWith P x := by
  obtain ⟨a, rfl⟩ := h
  exact ok a

theorem error {fault : ε} (h : P fault) : FailsWith P (.error fault : Except ε α) := by
  rintro _ ⟨⟩
  exact h

theorem bind {x : Except ε α} {f : α → Except ε β} (hx : FailsWith P x)
    (hf : ∀ a, x = .ok a → FailsWith P (f a)) : FailsWith P (x.bind f) := by
  cases x with
  | ok a => exact hf a rfl
  | error fault => exact error (hx fault rfl)

theorem map {x : Except ε α} (h : FailsWith P x) (f : α → β) : FailsWith P (x.map f) := by
  cases x with
  | ok a => exact ok _
  | error fault => exact error (h fault rfl)

theorem gather {P : Fault → Prop} {f : α → Logged (List β)} {as : List α}
    (h : ∀ a ∈ as, FailsWith P (f a).outcome) : FailsWith P (Logged.gather f as).outcome := by
  induction as with
  | nil => exact ok []
  | cons a as ih =>
    rw [List.forall_mem_cons] at h
    rw [Logged.outcome_gather_cons]
    exact h.1.bind fun _ _ => (ih h.2).map _

end FailsWith

/-- If the update is cut short, then by such a fault. -/
def Update.FailsWith (P : Fault → Prop) (x : Update σ) : Prop :=
  ∀ fault, x.2 = some fault → P fault

namespace Update.FailsWith

variable {P : Fault → Prop}

theorem of_none {x : Update σ} (h : x.2 = none) : x.FailsWith P := by
  intro fault hfault
  rw [h] at hfault
  cases hfault

theorem eq_none {x : Update σ} (h : x.FailsWith fun _ => False) : x.2 = none :=
  Option.eq_none_iff_forall_not_mem.mpr fun fault hfault => h fault hfault

theorem andThen {x : Update σ} {f : σ → Update σ} (hx : x.FailsWith P)
    (hf : x.2 = none → (f x.1).FailsWith P) : (x.andThen f).FailsWith P := by
  obtain ⟨s, _ | fault⟩ := x
  . exact hf rfl
  . exact hx

end Update.FailsWith
end ForwardChaining
