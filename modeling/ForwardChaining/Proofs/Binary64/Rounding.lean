import ForwardChaining.Binary64.Basic
import Mathlib.Algebra.Order.Field.Rat
import Mathlib.Data.Nat.Log
import Mathlib.Tactic.Linarith
import Mathlib.Tactic.Ring
import Mathlib.Tactic.FieldSimp

/-!
This module contains what rounding to a binary64 number depends on: the value of a fraction, not how
the fraction is written. A canonical form rounds to itself.
-/

namespace ForwardChaining.Binary64

theorem roundDiv_mul_left (num den : Nat) {c : Nat} (hc : 0 < c) :
    roundDiv (c * num) (c * den) = roundDiv num den := by
  unfold roundDiv
  rw [Nat.mul_div_mul_left _ _ hc, Nat.mul_mod_mul_left]
  have hless : ∀ a b : Nat, c * a < c * b ↔ a < b := fun a b => Nat.mul_lt_mul_left hc
  have hleft : 2 * (c * (num % den)) = c * (2 * (num % den)) := by ring
  simp only [hleft, hless]

theorem roundDiv_congr {num den num' den' : Nat} (hden : 0 < den) (hden' : 0 < den')
    (h : num * den' = num' * den) : roundDiv num den = roundDiv num' den' := by
  rw [← roundDiv_mul_left num den hden', ← roundDiv_mul_left num' den' hden, Nat.mul_comm den' num,
    h, Nat.mul_comm num' den, Nat.mul_comm den' den]

theorem roundDiv_mul_self (m : Nat) {den : Nat} (hden : 0 < den) : roundDiv (m * den) den = m := by
  unfold roundDiv
  rw [Nat.mul_div_cancel _ hden, Nat.mul_mod_left]
  simp [hden]

/-! ### The exponent -/

/-- A significand of 53 bits stands for the value at the exponent. -/
def Normal (q : ℚ) (e : ℤ) : Prop :=
  2 ^ 52 * (2 : ℚ) ^ e ≤ q ∧ q < 2 ^ 53 * (2 : ℚ) ^ e

theorem Normal.le {q : ℚ} {e e' : ℤ} (h : Normal q e) (h' : Normal q e') : e ≤ e' := by
  by_contra hlt
  have hstep : (2 : ℚ) ^ (e' + 1) ≤ 2 ^ e := zpow_le_zpow_right₀ (by norm_num) (by omega)
  rw [zpow_add₀ (by norm_num), zpow_one] at hstep
  have hlow := h.1
  have hhigh := h'.2
  linarith

theorem Normal.unique {q : ℚ} {e e' : ℤ} (h : Normal q e) (h' : Normal q e') : e = e' :=
  le_antisymm (h.le h') (h'.le h)

theorem scaled_value (num : Nat) {den : Nat} (hden : 0 < den) (e : ℤ) :
    0 < (scaled num den e).2
      ∧ ((scaled num den e).1 : ℚ) * den * 2 ^ e = num * (scaled num den e).2 := by
  cases e with
  | ofNat n =>
    refine ⟨Nat.mul_pos hden (by positivity), ?_⟩
    simp only [scaled, Int.ofNat_eq_natCast, zpow_natCast]
    push_cast
    ring
  | negSucc n =>
    refine ⟨hden, ?_⟩
    simp only [scaled, zpow_negSucc]
    push_cast
    field_simp

theorem floor_scaled_lt_iff (num : Nat) {den : Nat} (hden : 0 < den) (e : ℤ) :
    (scaled num den e).1 / (scaled num den e).2 < 2 ^ 52 ↔ (num : ℚ) < 2 ^ 52 * 2 ^ e * den := by
  obtain ⟨hd, hvalue⟩ := scaled_value num hden e
  have hd' : (0 : ℚ) < (scaled num den e).2 := by exact_mod_cast hd
  have hunit : (0 : ℚ) < den * 2 ^ e :=
    mul_pos (by exact_mod_cast hden) (zpow_pos (by norm_num) _)
  have hleft : ((scaled num den e).1 : ℚ) * (den * 2 ^ e) = num * (scaled num den e).2 := by
    rw [← hvalue, mul_assoc]
  have hright : 2 ^ 52 * ((scaled num den e).2 : ℚ) * (den * 2 ^ e)
      = 2 ^ 52 * 2 ^ e * den * (scaled num den e).2 := by
    ring
  rw [Nat.div_lt_iff_lt_mul hd, ← Nat.cast_lt (α := ℚ), Nat.cast_mul, Nat.cast_pow, Nat.cast_ofNat,
    ← mul_lt_mul_iff_left₀ hunit, hleft, hright, mul_lt_mul_iff_left₀ hd']

theorem estimate_bounds {num den : Nat} (hnum : 0 < num) (hden : 0 < den) :
    (2 : ℚ) ^ 52 * 2 ^ ((num.log2 : ℤ) - den.log2 - 52) * den < 2 * num
      ∧ (num : ℚ) < 2 ^ 53 * 2 ^ ((num.log2 : ℤ) - den.log2 - 52) * den := by
  have hnlow : (2 : ℚ) ^ num.log2 ≤ num := by exact_mod_cast Nat.log2_self_le hnum.ne'
  have hnhigh : (num : ℚ) < 2 ^ (num.log2 + 1) := by exact_mod_cast Nat.lt_log2_self
  have hdlow : (2 : ℚ) ^ den.log2 ≤ den := by exact_mod_cast Nat.log2_self_le hden.ne'
  have hdhigh : (den : ℚ) < 2 ^ (den.log2 + 1) := by exact_mod_cast Nat.lt_log2_self
  have hpow : (2 : ℚ) ^ num.log2 = 2 ^ den.log2 * (2 ^ 52 * 2 ^ ((num.log2 : ℤ) - den.log2 - 52)) := by
    rw [← zpow_natCast, ← zpow_natCast, ← zpow_natCast, ← zpow_add₀ (by norm_num),
      ← zpow_add₀ (by norm_num)]
    congr 1
    push_cast
    ring
  have hpos : (0 : ℚ) < 2 ^ 52 * 2 ^ ((num.log2 : ℤ) - den.log2 - 52) :=
    mul_pos (by norm_num) (zpow_pos (by norm_num) _)
  rw [pow_succ] at hnhigh hdhigh
  have hlow := mul_lt_mul_of_pos_right hdhigh hpos
  have hhigh := mul_le_mul_of_nonneg_right hdlow hpos.le
  constructor <;> linarith

theorem exponentOf_eq {num den : Nat} (hnum : 0 < num) (hden : 0 < den) :
    ∃ e, Normal (num / den) e ∧ exponentOf num den = max (-1074) e := by
  have hden' : (0 : ℚ) < den := by exact_mod_cast hden
  obtain ⟨hlow, hhigh⟩ := estimate_bounds hnum hden
  have hfloor := floor_scaled_lt_iff num hden ((num.log2 : ℤ) - den.log2 - 52)
  unfold exponentOf
  generalize (num.log2 : ℤ) - den.log2 - 52 = estimate at hlow hhigh hfloor
  dsimp only
  split
  . next hsmall =>
    have hless := hfloor.mp hsmall
    refine ⟨estimate - 1, ⟨?_, ?_⟩, rfl⟩
    . rw [zpow_sub₀ (by norm_num), zpow_one, le_div_iff₀ hden']
      linarith
    . rw [zpow_sub₀ (by norm_num), zpow_one, div_lt_iff₀ hden']
      linarith
  . next hlarge =>
    refine ⟨estimate, ⟨?_, ?_⟩, rfl⟩
    . rw [le_div_iff₀ hden']
      exact not_lt.mp fun hlt => hlarge (hfloor.mpr hlt)
    . rw [div_lt_iff₀ hden']
      exact hhigh

theorem exponentOf_congr {num den num' den' : Nat} (hnum : 0 < num) (hden : 0 < den)
    (hnum' : 0 < num') (hden' : 0 < den') (h : num * den' = num' * den) :
    exponentOf num den = exponentOf num' den' := by
  obtain ⟨e, he, heq⟩ := exponentOf_eq hnum hden
  obtain ⟨e', he', heq'⟩ := exponentOf_eq hnum' hden'
  have hvalue : (num : ℚ) / den = num' / den' := by
    rw [div_eq_div_iff (by exact_mod_cast hden.ne') (by exact_mod_cast hden'.ne')]
    exact_mod_cast h
  rw [hvalue] at he
  rw [heq, heq', he.unique he']

theorem scaled_congr {num den num' den' : Nat} (h : num * den' = num' * den) (e : ℤ) :
    (scaled num den e).1 * (scaled num' den' e).2
      = (scaled num' den' e).1 * (scaled num den e).2 := by
  cases e with
  | ofNat n =>
    change num * (den' * 2 ^ n) = num' * (den * 2 ^ n)
    rw [← Nat.mul_assoc, h, Nat.mul_assoc]
  | negSucc n =>
    change num * 2 ^ (n + 1) * den' = num' * 2 ^ (n + 1) * den
    rw [Nat.mul_right_comm, h, Nat.mul_right_comm]

theorem ofFraction_congr (negative : Bool) {num den num' den' : Nat} (hden : 0 < den)
    (hden' : 0 < den') (h : num * den' = num' * den) :
    ofFraction negative num den = ofFraction negative num' den' := by
  rcases Nat.eq_zero_or_pos num with rfl | hnum
  . have hzero : num' = 0 := by
      rw [Nat.zero_mul, eq_comm, Nat.mul_eq_zero] at h
      omega
    rw [hzero]
    rfl
  have hnum' : 0 < num' := by
    rw [Nat.pos_iff_ne_zero]
    rintro rfl
    rw [Nat.zero_mul, Nat.mul_eq_zero] at h
    omega
  unfold ofFraction
  rw [if_neg (by omega), if_neg (by omega), exponentOf_congr hnum hden hnum' hden' h]
  dsimp only
  rw [roundDiv_congr (scaled_value num hden _).1 (scaled_value num' hden' _).1 (scaled_congr h _)]

/-! ### Canonical forms -/

attribute [local simp] magnitude

theorem magnitude_value (m : Nat) (e : ℤ) :
    0 < (magnitude m e).2 ∧ ((magnitude m e).1 : ℚ) = m * 2 ^ e * (magnitude m e).2 := by
  cases e with
  | ofNat n =>
    refine ⟨Nat.one_pos, ?_⟩
    simp
  | negSucc n =>
    refine ⟨Nat.two_pow_pos _, ?_⟩
    simp only [magnitude, zpow_negSucc]
    push_cast
    field_simp

theorem exponentOf_magnitude {m : Nat} {e : ℤ} (h : Canonical m e) (hm : 0 < m) :
    exponentOf (magnitude m e).1 (magnitude m e).2 = e := by
  obtain ⟨hden, hvalue⟩ := magnitude_value m e
  have hden' : (0 : ℚ) < (magnitude m e).2 := by exact_mod_cast hden
  have hpos : (0 : ℚ) < 2 ^ e := zpow_pos (by norm_num) _
  have hm' : (0 : ℚ) < m := by exact_mod_cast hm
  have hnum : 0 < (magnitude m e).1 := by
    rw [← Nat.cast_pos (α := ℚ), hvalue]
    positivity
  obtain ⟨e', hnormal, heq⟩ := exponentOf_eq hnum hden
  rw [hvalue, mul_div_cancel_right₀ _ hden'.ne'] at hnormal
  rw [heq]
  rcases h with ⟨hsmall, rfl⟩ | ⟨hlow, hhigh, hleast, -⟩
  . apply max_eq_left
    by_contra hlt
    have hstep : (2 : ℚ) ^ (-1074 + 1 : ℤ) ≤ 2 ^ e' := zpow_le_zpow_right₀ (by norm_num) (by omega)
    rw [zpow_add₀ (by norm_num), zpow_one] at hstep
    have hbound : (m : ℚ) < 2 ^ 53 := by exact_mod_cast hsmall
    have hscaled := mul_lt_mul_of_pos_right hbound hpos
    have hnormal' := hnormal.1
    linarith
  . have hself : Normal (m * 2 ^ e) e := by
      constructor
      . apply mul_le_mul_of_nonneg_right _ hpos.le
        exact_mod_cast hlow
      . apply mul_lt_mul_of_pos_right _ hpos
        exact_mod_cast hhigh
    rw [hnormal.unique hself]
    omega

theorem ofFraction_magnitude (negative : Bool) {m : Nat} {e : ℤ} (h : Canonical m e) :
    ofFraction negative (magnitude m e).1 (magnitude m e).2 = .finite negative m e h := by
  obtain ⟨hden, hvalue⟩ := magnitude_value m e
  rcases Nat.eq_zero_or_pos m with rfl | hm
  . have hnum : (magnitude 0 e).1 = 0 := by
      cases e <;> simp
    have he : e = -1074 := by
      rcases h with ⟨-, he⟩ | ⟨hlow, -⟩
      . exact he
      . exact False.elim (by omega)
    subst he
    rw [hnum]
    rfl
  . have hpos : (0 : ℚ) < 2 ^ e := zpow_pos (by norm_num) _
    have hnum : 0 < (magnitude m e).1 := by
      rw [← Nat.cast_pos (α := ℚ), hvalue]
      have hm' : (0 : ℚ) < m := by exact_mod_cast hm
      have hden' : (0 : ℚ) < (magnitude m e).2 := by exact_mod_cast hden
      positivity
    obtain ⟨hd, hscaled⟩ := scaled_value (magnitude m e).1 hden e
    have hself : (scaled (magnitude m e).1 (magnitude m e).2 e).1
        = m * (scaled (magnitude m e).1 (magnitude m e).2 e).2 := by
      rw [hvalue] at hscaled
      have hcancel : ((magnitude m e).2 : ℚ) * 2 ^ e ≠ 0 := by
        apply mul_ne_zero _ hpos.ne'
        exact_mod_cast hden.ne'
      rw [← Nat.cast_inj (R := ℚ), Nat.cast_mul]
      apply mul_right_cancel₀ hcancel
      linarith
    unfold ofFraction
    rw [if_neg (by omega), exponentOf_magnitude h hm]
    dsimp only
    rw [hself, roundDiv_mul_self m hd, dif_pos h]

end ForwardChaining.Binary64
