import ForwardChaining.Binary64.Sum
import Mathlib.Algebra.BigOperators.Group.List.Basic
import Mathlib.Algebra.Field.Rat
import Mathlib.Tactic.Ring

/-!
This module contains what partial sums know: the exact sum of the finite numbers added so far, and which
infinities and whether a NaN came among them. So the total does not depend on the order of the numbers.
-/

namespace ForwardChaining.Binary64

theorem absorb_sum {x : Rat} {parts parts' : List Rat} (h : Partials.absorb x parts = some parts') :
    parts'.sum = x + parts.sum := by
  induction parts generalizing x parts' with
  | nil =>
    simp only [Partials.absorb, Option.some.injEq] at h
    subst h
    split
    . next hzero => simp [hzero]
    . simp
  | cons y parts ih =>
    unfold Partials.absorb at h
    split at h
    . cases h
    . next high _ =>
      obtain ⟨rest, hrest, rfl⟩ := Option.map_eq_some_iff.mp h
      have hsum := ih hrest
      split
      . next hexact =>
        -- without a rounding error the sum of the two is what is carried on
        have hhigh : high = x + y := by
          rw [sub_eq_zero] at hexact
          exact hexact.symm
        rw [hsum, hhigh, List.sum_cons, add_assoc]
      . rw [List.sum_cons, hsum, List.sum_cons]
        ring

/-- The partial sums of some numbers. With an infinity or a NaN among them the finite ones do not matter. -/
structure Partials.SumsUp (s : Partials) (xs : List Binary64) : Prop where
  posInfinity : s.posInfinity = true ↔ Binary64.infinite false ∈ xs
  negInfinity : s.negInfinity = true ↔ Binary64.infinite true ∈ xs
  nan : s.nan = true ↔ ∃ origin, Binary64.nan origin ∈ xs
  finite : s.posInfinity = false → s.negInfinity = false → s.nan = false →
    s.parts.sum = (xs.filterMap toRat?).sum

namespace Partials.SumsUp

theorem empty : Partials.empty.SumsUp [] :=
  ⟨by simp [Partials.empty], by simp [Partials.empty], by simp [Partials.empty], fun _ _ _ => rfl⟩

theorem add {s s' : Partials} {xs : List Binary64} (h : s.SumsUp xs) {x : Binary64}
    (hadd : s.add x = .ok s') : s'.SumsUp (x :: xs) := by
  cases x with
  | nan origin =>
    cases hadd
    exact ⟨by simp [h.posInfinity], by simp [h.negInfinity], by simp, by simp⟩
  | infinite negative =>
    cases negative <;> cases hadd
    . exact ⟨by simp, by simp [h.negInfinity], by simp [h.nan], by simp⟩
    . exact ⟨by simp [h.posInfinity], by simp, by simp [h.nan], by simp⟩
  | finite negative m e hcanonical =>
    simp only [Partials.add, toRat?] at hadd
    split at hadd
    . cases hadd
    . next parts habsorb =>
      cases hadd
      refine ⟨by simp [h.posInfinity], by simp [h.negInfinity], by simp [h.nan], ?_⟩
      intro hpos hneg hnan
      rw [absorb_sum habsorb, h.finite hpos hneg hnan]
      rfl

theorem total_eq {s s' : Partials} {xs xs' : List Binary64} (h : s.SumsUp xs) (h' : s'.SumsUp xs')
    (hperm : xs.Perm xs') (n : Nat) : s.total n = s'.total n := by
  have hpos : s.posInfinity = s'.posInfinity := by
    rw [Bool.eq_iff_iff, h.posInfinity, h'.posInfinity, hperm.mem_iff]
  have hneg : s.negInfinity = s'.negInfinity := by
    rw [Bool.eq_iff_iff, h.negInfinity, h'.negInfinity, hperm.mem_iff]
  have hnan : s.nan = s'.nan := by
    rw [Bool.eq_iff_iff, h.nan, h'.nan]
    simp only [hperm.mem_iff]
  unfold Partials.total
  rw [hpos, hneg, hnan]
  by_cases hfinite : s'.posInfinity = false ∧ s'.negInfinity = false ∧ s'.nan = false
  . obtain ⟨hp, hn, ha⟩ := hfinite
    have hsum : s.parts.sum = s'.parts.sum := by
      rw [h.finite (hpos.trans hp) (hneg.trans hn) (hnan.trans ha), h'.finite hp hn ha]
      exact (hperm.filterMap _).sum_eq
    rw [List.sum_eq_foldr, List.sum_eq_foldr] at hsum
    rw [hsum]
  . cases hp : s'.posInfinity <;> cases hn : s'.negInfinity <;> cases ha : s'.nan <;>
      first | rfl | exact absurd ⟨hp, hn, ha⟩ hfinite

end Partials.SumsUp
end ForwardChaining.Binary64
