import ForwardChaining.Proofs.Aggregate
import ForwardChaining.Proofs.Binary64.Sum
import Mathlib.Data.List.Perm.Basic

/-!
This module contains how far a sum depends on the order of the contributions: it is the same in any order,
unless a partial sum is too large in one of them.
-/

namespace ForwardChaining

namespace Value

/-- The binary64 numbers that some numbers are, as far as there are such. -/
def reals (xs : List Value) : List Binary64 :=
  xs.filterMap fun x => x.toReal.toOption

theorem toReal_cases {x : Value} (h : x.IsNumber) :
    (∃ y, x.toReal = .ok y) ∨ x.toReal = .error .integerTooLarge := by
  cases x with
  | float y => exact .inl ⟨y, rfl⟩
  | int n =>
    simp only [toReal, number?]
    split
    . exact .inl ⟨_, rfl⟩
    . exact .inr rfl
  | _ => exact False.elim h

theorem sumsUp_addReals {s s' : Binary64.Partials} {xs : List Value} {zs : List Binary64}
    (h : s.SumsUp zs) (hadd : addReals s xs = .ok s') : s'.SumsUp ((reals xs).reverse ++ zs) := by
  induction xs generalizing s zs with
  | nil =>
    cases hadd
    exact h
  | cons x xs ih =>
    unfold addReals at hadd
    split at hadd
    . cases hadd
    . next y hy =>
      split at hadd
      . cases hadd
      . next next hnext =>
        have hsums := ih (h.add hnext) hadd
        have hreals : reals (x :: xs) = y :: reals xs := by
          rw [reals, List.filterMap_cons, hy]
          rfl
        rw [hreals, List.reverse_cons, List.append_assoc]
        exact hsums

theorem toReal_of_addReals {s s' : Binary64.Partials} {xs : List Value} (hadd : addReals s xs = .ok s') :
    ∀ x ∈ xs, ∃ y, x.toReal = .ok y := by
  induction xs generalizing s with
  | nil => simp
  | cons x xs ih =>
    unfold addReals at hadd
    split at hadd
    . cases hadd
    . next y hy =>
      split at hadd
      . cases hadd
      . exact List.forall_mem_cons.mpr ⟨⟨y, hy⟩, ih hadd⟩

theorem addReals_error {s : Binary64.Partials} {xs : List Value} (hnumbers : ∀ x ∈ xs, x.IsNumber)
    {fault : Fault} (hadd : addReals s xs = .error fault) :
    fault = .sumOverflow ∨ fault = .integerTooLarge ∧ ∃ x ∈ xs, x.toReal = .error .integerTooLarge := by
  induction xs generalizing s with
  | nil => cases hadd
  | cons x xs ih =>
    rw [List.forall_mem_cons] at hnumbers
    unfold addReals at hadd
    rcases toReal_cases hnumbers.1 with ⟨y, hy⟩ | hlarge
    . simp only [hy] at hadd
      split at hadd
      . next cause hcause =>
        cases hadd
        cases y with
        | nan => cases hcause
        | infinite negative => cases negative <;> cases hcause
        | finite =>
          simp only [Binary64.Partials.add, Binary64.toRat?] at hcause
          split at hcause
          . cases hcause
            exact .inl rfl
          . cases hcause
      . rcases ih hnumbers.2 hadd with hover | ⟨hfault, z, hz, hlarge⟩
        . exact .inl hover
        . exact .inr ⟨hfault, z, List.mem_cons_of_mem _ hz, hlarge⟩
    . simp only [hlarge] at hadd
      cases hadd
      exact .inr ⟨rfl, x, List.mem_cons_self .., hlarge⟩

theorem exactInts?_eq_some_iff {xs : List Value} :
    (∃ ns, exactInts? xs = some ns) ↔ ∀ x ∈ xs, ∃ n, exactInt? x = some n := by
  induction xs with
  | nil => simp [exactInts?]
  | cons x xs ih =>
    rw [List.forall_mem_cons, ← ih, exactInts?]
    cases exactInt? x <;> cases exactInts? xs <;> simp

theorem eq_of_exactInts? {xs : List Value} {ns : List Int} (h : exactInts? xs = some ns) :
    ns = xs.filterMap exactInt? := by
  induction xs generalizing ns with
  | nil => simpa [exactInts?] using h.symm
  | cons x xs ih =>
    unfold exactInts? at h
    split at h
    . next n rest hn hrest =>
      cases h
      rw [List.filterMap_cons, hn, ih hrest]
    . cases h

theorem exactInts?_perm {xs xs' : List Value} (hperm : xs.Perm xs') {ns : List Int}
    (h : exactInts? xs = some ns) : ∃ ns', exactInts? xs' = some ns' ∧ ns.Perm ns' := by
  obtain ⟨ns', hns'⟩ := exactInts?_eq_some_iff.mpr fun x hx =>
    exactInts?_eq_some_iff.mp ⟨ns, h⟩ x (hperm.mem_iff.mpr hx)
  refine ⟨ns', hns', ?_⟩
  rw [eq_of_exactInts? h, eq_of_exactInts? hns']
  exact hperm.filterMap _

theorem exactInts?_perm_none {xs xs' : List Value} (hperm : xs.Perm xs')
    (h : exactInts? xs = none) : exactInts? xs' = none := by
  cases hsome : exactInts? xs' with
  | none => rfl
  | some ns' =>
    obtain ⟨ns, hns, -⟩ := exactInts?_perm hperm.symm hsome
    rw [h] at hns
    cases hns

theorem addReals_perm_error {xs xs' : List Value} (hnumbers : ∀ x ∈ xs, x.IsNumber)
    (hperm : xs.Perm xs') {fault : Fault} (hadd : addReals .empty xs = .error fault) :
    fault = .sumOverflow ∨ ∃ fault', addReals .empty xs' = .error fault'
      ∧ (fault' = .sumOverflow ∨ fault' = fault) := by
  rcases addReals_error hnumbers hadd with rfl | ⟨rfl, x, hx, hlarge⟩
  . exact .inl rfl
  right
  cases hadd' : addReals .empty xs' with
  | error fault' =>
    refine ⟨fault', rfl, ?_⟩
    exact (addReals_error (fun y hy => hnumbers y (hperm.mem_iff.mpr hy)) hadd').imp_right (·.1)
  | ok s' =>
    obtain ⟨y, hy⟩ := toReal_of_addReals hadd' x (hperm.mem_iff.mp hx)
    rw [hlarge] at hy
    cases hy

/-- A sum is the same in any order, unless it overflows in one of them. -/
theorem exactSum_perm (n : Nat) {xs xs' : List Value} (hnumbers : ∀ x ∈ xs, x.IsNumber)
    (hperm : xs.Perm xs') : exactSum n xs = exactSum n xs' ∨ exactSum n xs = .error .sumOverflow
      ∨ exactSum n xs' = .error .sumOverflow := by
  have hnumbers' : ∀ x ∈ xs', x.IsNumber := fun x hx => hnumbers x (hperm.mem_iff.mpr hx)
  unfold exactSum
  cases hints : exactInts? xs with
  | some ns =>
    obtain ⟨ns', hints', hns⟩ := exactInts?_perm hperm hints
    left
    simp only [hints', foldl_add, hns.sum_eq]
  | none =>
    simp only [exactInts?_perm_none hperm hints]
    cases hadd : addReals .empty xs with
    | error fault =>
      rcases addReals_perm_error hnumbers hperm hadd with rfl | ⟨fault', hadd', rfl | rfl⟩
      . exact .inr (.inl rfl)
      . rw [hadd']
        exact .inr (.inr rfl)
      . rw [hadd']
        exact .inl rfl
    | ok s =>
      cases hadd' : addReals .empty xs' with
      | error fault' =>
        rcases addReals_perm_error hnumbers' hperm.symm hadd' with rfl | ⟨fault, hfails, -⟩
        . exact .inr (.inr rfl)
        . rw [hadd] at hfails
          cases hfails
      | ok s' =>
        have hsums := sumsUp_addReals .empty hadd
        have hsums' := sumsUp_addReals .empty hadd'
        have hreals : (reals xs).reverse.Perm (reals xs').reverse :=
          (List.reverse_perm _).trans ((hperm.filterMap _).trans (List.reverse_perm _).symm)
        left
        simp only [hsums.total_eq hsums' (hreals.append_right []) n]

end Value
end ForwardChaining
