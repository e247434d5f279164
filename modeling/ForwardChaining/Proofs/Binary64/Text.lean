import ForwardChaining.Binary64.Text
import ForwardChaining.Proofs.Binary64.Rounding
import ForwardChaining.Proofs.Text.Digits
import Mathlib.Data.Bool.AllAny
import Mathlib.Data.List.TakeWhile

/-!
This module contains what the text of a binary64 number tells: the digits and the point in it have a
value, the number is the nearest one to that value, and so no two numbers have the same text.
-/

namespace ForwardChaining

open Text

/-! ### Decimals -/

/-- The value of digits with the point in its place. -/
def Decimal.value (d : Decimal) : ℚ :=
  natOfDigits d.digits * 10 ^ (d.point - d.digits.length)

namespace Binary64

theorem exists_trailingZeros (digits : List Char) :
    ∃ n, digits = dropTrailingZeros digits ++ List.replicate n '0' := by
  refine ⟨(digits.reverse.takeWhile (· == '0')).length, ?_⟩
  have hzeros : digits.reverse.takeWhile (· == '0')
      = List.replicate (digits.reverse.takeWhile (· == '0')).length '0' := by
    rw [List.eq_replicate_iff]
    refine ⟨rfl, fun c hc => ?_⟩
    simpa using List.mem_takeWhile_imp hc
  unfold dropTrailingZeros
  rw [← List.reverse_replicate, ← hzeros, ← List.reverse_append, List.takeWhile_append_dropWhile,
    List.reverse_reverse]

theorem value_decimalOf (n : Nat) (exponent : Int) :
    (decimalOf n exponent).value = n * 10 ^ exponent := by
  obtain ⟨zeros, hzeros⟩ := exists_trailingZeros (digitsOf n)
  have hn : n = natOfDigits (dropTrailingZeros (digitsOf n)) * 10 ^ zeros := by
    conv_lhs => rw [← natOfDigits_toDigits n]
    change natOfDigits (digitsOf n) = _
    conv_lhs => rw [hzeros]
    rw [natOfDigits_append, natOfDigits_zeros, List.length_replicate, Nat.add_zero]
  have hlength : ((digitsOf n).length : Int) = (dropTrailingZeros (digitsOf n)).length + zeros := by
    conv_lhs => rw [hzeros]
    rw [List.length_append, List.length_replicate]
    push_cast
    rfl
  unfold decimalOf Decimal.value
  dsimp only
  conv_rhs => rw [hn]
  rw [hlength]
  push_cast
  rw [mul_assoc, ← zpow_natCast, ← zpow_add₀ (by norm_num)]
  congr 2
  ring

theorem allDigits_decimalOf (n : Nat) (exponent : Int) :
    AllDigits (decimalOf n exponent).digits := by
  apply (allDigits_toDigits n).subset
  intro c hc
  obtain ⟨zeros, hzeros⟩ := exists_trailingZeros (digitsOf n)
  change c ∈ digitsOf n
  rw [hzeros]
  exact List.mem_append_left _ hc

/-! ### Reading back -/

/-- Fractions of the value are rounded to the number `m * 2 ^ e`. -/
def Reads (q : ℚ) (m : Nat) (e : Int) : Prop :=
  ∀ num den : Nat, 0 < den → (num : ℚ) = q * den →
    ∃ h, ofFraction false num den = .finite false m e h

theorem Reads.unique {q : ℚ} (hq : 0 ≤ q) {m m' : Nat} {e e' : Int} (h : Reads q m e)
    (h' : Reads q m' e') : m = m' ∧ e = e' := by
  have hvalue : (q.num.toNat : ℚ) = q * q.den := by
    have hnum : ((q.num.toNat : ℤ) : ℚ) = q.num := by
      rw [Int.toNat_of_nonneg (Rat.num_nonneg.mpr hq)]
    rw [Rat.mul_den_eq_num]
    exact_mod_cast hnum
  obtain ⟨hcanonical, hround⟩ := h _ _ q.den_pos hvalue
  obtain ⟨hcanonical', hround'⟩ := h' _ _ q.den_pos hvalue
  rw [hround] at hround'
  cases hround'
  exact ⟨rfl, rfl⟩

theorem Reads.of_fraction {q : ℚ} {m : Nat} {e : Int} {num den : Nat} (hden : 0 < den)
    (hvalue : (num : ℚ) = q * den) {h : Canonical m e}
    (hround : ofFraction false num den = .finite false m e h) : Reads q m e := by
  intro num' den' hden' hvalue'
  refine ⟨h, ?_⟩
  rw [← hround]
  apply ofFraction_congr false hden' hden
  rw [← Nat.cast_inj (R := ℚ)]
  push_cast
  rw [hvalue, hvalue']
  ring

theorem shifted_value (n : Nat) (exponent : Int) :
    0 < (shifted n 1 exponent).2
      ∧ ((shifted n 1 exponent).1 : ℚ) = n * 10 ^ exponent * (shifted n 1 exponent).2 := by
  cases exponent with
  | ofNat k =>
    refine ⟨Nat.one_pos, ?_⟩
    simp [shifted]
  | negSucc k =>
    refine ⟨by simp [shifted], ?_⟩
    simp only [shifted, zpow_negSucc, Nat.one_mul]
    push_cast
    field_simp

theorem finite_of_ofFraction {negative negative' : Bool} {num den m : Nat} {e : Int}
    {h : Canonical m e} (heq : ofFraction negative num den = .finite negative' m e h) :
    negative' = negative := by
  unfold ofFraction zero at heq
  split at heq
  . cases heq
    rfl
  . dsimp only at heq
    split at heq
    . cases heq
      rfl
    . split at heq <;> cases heq
      rfl

theorem reads_of_readsBack {m : Nat} {e : Int} {n : Nat} {exponent : Int}
    (h : readsBack m e n exponent = true) : Reads (n * 10 ^ exponent) m e := by
  unfold readsBack at h
  dsimp only at h
  split at h
  . next negative m' e' hcanonical hround =>
    rw [Bool.and_eq_true, beq_iff_eq, beq_iff_eq] at h
    obtain ⟨rfl, rfl⟩ := h
    obtain ⟨hden, hvalue⟩ := shifted_value n exponent
    have hsign := finite_of_ofFraction hround
    subst hsign
    exact .of_fraction hden hvalue hround
  . cases h

theorem roundDiv_eq_or (num den : Nat) :
    roundDiv num den = num / den ∨ roundDiv num den = num / den + 1 := by
  unfold roundDiv
  dsimp only
  split
  . exact .inl rfl
  . split
    . exact .inr rfl
    . omega

/-- What the digits of a decimal must be like to stand for a number. -/
def Denotes (d : Decimal) (m : Nat) (e : Int) : Prop :=
  Reads d.value m e ∧ AllDigits d.digits

theorem denotes_decimalOf {m : Nat} {e : Int} {n : Nat} {exponent : Int}
    (h : readsBack m e n exponent = true) : Denotes (decimalOf n exponent) m e := by
  refine ⟨?_, allDigits_decimalOf n exponent⟩
  rw [value_decimalOf]
  exact reads_of_readsBack h

theorem denotes_neighbour? {m : Nat} {e : Int} {count : Nat} {d : Decimal}
    (h : neighbour? m e count = some d) : Denotes d m e := by
  unfold neighbour? at h
  dsimp only at h
  split at h
  . next hboth =>
    rw [Bool.and_eq_true] at hboth
    cases h
    apply denotes_decimalOf
    rcases roundDiv_eq_or _ _ with heq | heq <;> rw [heq]
    . exact hboth.1
    . exact hboth.2
  split at h
  . next hlow =>
    cases h
    exact denotes_decimalOf hlow
  split at h
  . next hhigh =>
    cases h
    exact denotes_decimalOf hhigh
  . cases h

theorem denotes_allDigits {m : Nat} {e : Int} (h : Canonical m e) :
    Denotes (allDigits m e) m e := by
  have hround := ofFraction_magnitude false h
  obtain ⟨hden, hvalue⟩ := magnitude_value m e
  have hreads : Reads (m * 2 ^ e) m e := .of_fraction hden hvalue hround
  cases e with
  | ofNat n =>
    refine ⟨?_, allDigits_decimalOf _ _⟩
    simp only [allDigits, value_decimalOf]
    simpa using hreads
  | negSucc n =>
    refine ⟨?_, allDigits_decimalOf _ _⟩
    have hten : ((m * 5 ^ (n + 1) : Nat) : ℚ) * 10 ^ Int.negSucc n = m * 2 ^ Int.negSucc n := by
      rw [zpow_negSucc, zpow_negSucc, show (10 : ℚ) = 2 * 5 by norm_num, mul_pow]
      push_cast
      field_simp
    simp only [allDigits, value_decimalOf, hten]
    exact hreads

theorem denotes_fewestDigits {m : Nat} {e : Int} (h : Canonical m e) (more count : Nat) :
    Denotes (fewestDigits m e count more) m e := by
  induction more generalizing count with
  | zero => exact denotes_allDigits h
  | succ more ih =>
    unfold fewestDigits
    cases hfound : neighbour? m e count with
    | none => exact ih (count + 1)
    | some d => exact denotes_neighbour? hfound

/-! ### Layouts -/

/-- The value of a layout. -/
def Layout.value (l : Layout) : ℚ :=
  natOfDigits (l.whole ++ l.places)
    * 10 ^ ((readExponent l.exponent).getD 0 - (l.places.length : Int))

/-- The parts of the layout are what they are called, and it is not that of an integer. -/
structure Layout.Proper (l : Layout) : Prop where
  whole : AllDigits l.whole
  places : AllDigits l.places
  exponent : l.exponent = [] ∨ ∃ e, l.exponent = exponentText 'e' e
  fractional : l.places ≠ [] ∨ l.exponent ≠ []

theorem readExponent_nil : readExponent [] = some 0 :=
  rfl

theorem readExponent_exponentText (e : Int) : readExponent (exponentText 'e' e) = some e := by
  have hdigits : ∃ digits, AllDigits digits ∧ digits ≠ [] ∧ natOfDigits digits = e.natAbs
      ∧ (if (digitsOf e.natAbs).length < 2 then '0' :: digitsOf e.natAbs else digitsOf e.natAbs)
        = digits := by
    split
    . refine ⟨_, ?_, by simp, ?_, rfl⟩
      . intro c hc
        rcases List.mem_cons.mp hc with rfl | hc
        . rfl
        . exact allDigits_toDigits _ c hc
      . change natOfDigits (List.replicate 1 '0' ++ Nat.toDigits 10 e.natAbs) = e.natAbs
        rw [natOfDigits_append, natOfDigits_zeros, natOfDigits_toDigits]
        simp
    . exact ⟨_, allDigits_toDigits _, Nat.toDigits_ne_nil, natOfDigits_toDigits _, rfl⟩
  obtain ⟨digits, hall, hne, hvalue, heq⟩ := hdigits
  have hread : readDigits digits = some (digits, []) := by
    have hend : EndsDigits [] := by simp [EndsDigits]
    obtain ⟨htake, hdrop⟩ := split_run hall hend
    rw [List.append_nil] at htake hdrop
    unfold readDigits
    rw [htake, hdrop]
    simp [hne]
  unfold exponentText readExponent
  dsimp only
  rw [heq]
  by_cases hnegative : e < 0
  . simp only [hnegative, if_true, hread, hvalue]
    exact congrArg some (by omega)
  . simp only [hnegative, if_false, hread, hvalue, Bool.false_eq_true]
    exact congrArg some (by omega)

theorem Layout.Proper.ends {l : Layout} (h : l.Proper) : EndsDigits l.exponent := by
  rcases h.exponent with heq | ⟨e, heq⟩ <;> rw [heq] <;> intro c hc <;> cases hc
  rfl

theorem Layout.chars_inj {l l' : Layout} (h : l.Proper) (h' : l'.Proper)
    (heq : l.chars = l'.chars) : l = l' := by
  have hrest : ∀ {l : Layout}, l.Proper →
      EndsDigits ((if l.places.isEmpty then [] else '.' :: l.places) ++ l.exponent) := by
    intro l hl
    split
    . exact hl.ends
    . intro c hc
      cases hc
      rfl
  have hpoint : ∀ {l : Layout} {cs : List Char}, l.Proper → l.exponent ≠ '.' :: cs := by
    intro l cs hl hdot
    rcases hl.exponent with hnil | ⟨e, htext⟩
    . rw [hnil] at hdot
      cases hdot
    . rw [htext] at hdot
      simp [exponentText] at hdot
  unfold Layout.chars at heq
  rw [List.append_assoc, List.append_assoc] at heq
  obtain ⟨hwhole, heq⟩ := run_append_inj h.whole h'.whole (hrest h) (hrest h') heq
  -- A point can only be that of the places, since no exponent starts with one.
  have hparts : l.places = l'.places ∧ l.exponent = l'.exponent := by
    cases hplaces : l.places with
    | nil =>
      cases hplaces' : l'.places with
      | nil =>
        rw [hplaces, hplaces'] at heq
        exact ⟨rfl, by simpa using heq⟩
      | cons c cs =>
        rw [hplaces, hplaces'] at heq
        exact False.elim (hpoint h (by simpa using heq))
    | cons c cs =>
      cases hplaces' : l'.places with
      | nil =>
        rw [hplaces, hplaces'] at heq
        exact False.elim (hpoint h' (by simpa using heq.symm))
      | cons c' cs' =>
        rw [← hplaces, ← hplaces']
        apply run_append_inj h.places h'.places h.ends h'.ends
        rw [hplaces, hplaces'] at heq ⊢
        simpa using heq
  cases l
  cases l'
  simp only at hwhole hparts
  rw [hwhole, hparts.1, hparts.2]

theorem value_positional (digits : List Char) (point : Int) :
    natOfDigits ((positional digits point).1 ++ (positional digits point).2)
        * 10 ^ (-((positional digits point).2.length : Int))
      = (Decimal.mk digits point).value := by
  unfold positional Decimal.value
  split
  . next hpoint =>
    rw [← List.append_assoc, natOfDigits_append]
    have hzeros : natOfDigits (['0'] ++ List.replicate point.natAbs '0') = 0 :=
      natOfDigits_zeros (point.natAbs + 1)
    rw [hzeros, Nat.zero_mul, Nat.zero_add, List.length_append, List.length_replicate,
      Nat.cast_add]
    congr 2
    dsimp only
    omega
  . next hpoint =>
    by_cases hlong : digits.length ≤ point.toNat
    . rw [List.take_of_length_le hlong, List.drop_eq_nil_of_le hlong, List.append_nil,
        natOfDigits_append, natOfDigits_zeros, List.length_replicate, List.length_nil, Nat.add_zero,
        Nat.cast_zero, neg_zero, zpow_zero, mul_one, Nat.cast_mul, Nat.cast_pow, Nat.cast_ofNat,
        ← zpow_natCast]
      congr 2
      dsimp only
      omega
    . have hnone : point.toNat - digits.length = 0 := by omega
      dsimp only
      rw [hnone, List.replicate_zero, List.append_nil, List.take_append_drop, List.length_drop]
      congr 2
      omega

theorem allDigits_positional {digits : List Char} (h : AllDigits digits) (point : Int) :
    AllDigits (positional digits point).1 ∧ AllDigits (positional digits point).2 := by
  unfold positional
  split
  . exact ⟨allDigits_zeros 1, (allDigits_zeros _).append h⟩
  . exact ⟨(h.subset fun c hc => List.mem_of_mem_take hc).append (allDigits_zeros _),
      h.subset fun c hc => List.mem_of_mem_drop hc⟩

theorem reads_zero {m : Nat} {e : Int} (h : Reads 0 m e) : m = 0 := by
  obtain ⟨hcanonical, hround⟩ := h 0 1 Nat.one_pos (by simp)
  cases hround
  rfl

theorem Denotes.nonempty {d : Decimal} {m : Nat} {e : Int} (h : Denotes d m e) (hm : m ≠ 0) :
    d.digits ≠ [] := by
  intro hnil
  apply hm
  apply reads_zero (e := e)
  have hzero : d.value = 0 := by
    unfold Decimal.value
    rw [hnil]
    exact (congrArg (· * _) Nat.cast_zero).trans (zero_mul _)
  rw [← hzero]
  exact h.1

/-! ### The layouts of numbers -/

theorem reads_layout_zero {e : Int} (h : Canonical 0 e) :
    Reads (Layout.mk ['0'] ['0'] []).value 0 e := by
  have hvalue : (Layout.mk ['0'] ['0'] []).value = ((0 : Nat) : ℚ) * 10 ^ (0 : Int) := by
    have hdigits : natOfDigits (['0'] ++ ['0']) = 0 := natOfDigits_zeros 2
    unfold Layout.value
    rw [hdigits, Nat.cast_zero, zero_mul, zero_mul]
  rw [hvalue]
  obtain ⟨hden, hmagnitude⟩ := magnitude_value 0 e
  apply Reads.of_fraction hden _ (ofFraction_magnitude false h)
  simpa using hmagnitude

theorem value_layout_whole (whole : List Char) : (Layout.mk whole ['0'] []).value
    = natOfDigits (whole ++ []) * 10 ^ (-(([] : List Char).length : Int)) := by
  have hzero : natOfDigits ['0'] = 0 := natOfDigits_zeros 1
  unfold Layout.value
  rw [natOfDigits_append, hzero, List.append_nil]
  simp [readExponent_nil]

theorem value_layout_exponent {digits : List Char} (hne : digits ≠ []) (point : Int) :
    (Layout.mk (digits.take 1) (digits.drop 1) (exponentText 'e' (point - 1))).value
      = (Decimal.mk digits point).value := by
  have hlength : 0 < digits.length := List.length_pos_iff.mpr hne
  unfold Layout.value Decimal.value
  rw [readExponent_exponentText, List.take_append_drop, Option.getD_some, List.length_drop]
  congr 2
  dsimp only
  omega

theorem reads_shortestLayout {m : Nat} {e : Int} (h : Canonical m e) :
    Reads (shortestLayout m e).value m e ∧ (shortestLayout m e).Proper := by
  unfold shortestLayout
  split
  . next hm =>
    subst hm
    exact ⟨reads_layout_zero h, allDigits_zeros 1, allDigits_zeros 1, .inl rfl, .inl (by simp)⟩
  next hm =>
  obtain ⟨hreads, hall⟩ : Denotes (shortest m e) m e := denotes_fewestDigits h 17 1
  have hne := Denotes.nonempty ⟨hreads, hall⟩ hm
  generalize shortest m e = d at hreads hall hne
  obtain ⟨digits, point⟩ := d
  dsimp only at hall hne ⊢
  split
  . obtain ⟨hwhole, hplaces⟩ := allDigits_positional hall point
    rw [← value_positional] at hreads
    generalize positional digits point = parts at hreads hwhole hplaces
    obtain ⟨whole, places⟩ := parts
    dsimp only at hreads hwhole hplaces ⊢
    cases places with
    | nil =>
      rw [List.isEmpty_nil, if_pos rfl, value_layout_whole]
      exact ⟨hreads, hwhole, allDigits_zeros 1, .inl rfl, .inl (by simp)⟩
    | cons c cs =>
      refine ⟨?_, hwhole, hplaces, .inl rfl, .inl (by simp)⟩
      simpa [Layout.value, readExponent_nil] using hreads
  . rw [value_layout_exponent hne]
    exact ⟨hreads, hall.subset fun c hc => List.mem_of_mem_take hc,
      hall.subset fun c hc => List.mem_of_mem_drop hc, .inr ⟨_, rfl⟩, .inr (by simp [exponentText])⟩

/-! ### Texts -/

/-- The characters of numbers other than digits. -/
def marks : List Char :=
  ['.', 'e', '+', '-', 'i', 'n', 'f', 'a']

theorem mem_exponentText {e : Int} {c : Char} (h : c ∈ exponentText 'e' e) :
    c.isDigit = true ∨ c ∈ marks := by
  unfold exponentText at h
  rcases List.mem_cons.mp h with rfl | h
  . exact .inr (by decide)
  rcases List.mem_cons.mp h with rfl | h
  . split <;> exact .inr (by decide)
  . left
    split at h
    . rcases List.mem_cons.mp h with rfl | h
      . rfl
      . exact allDigits_toDigits _ c h
    . exact allDigits_toDigits _ c h

theorem Layout.Proper.mem_chars {l : Layout} (h : l.Proper) {c : Char} (hc : c ∈ l.chars) :
    c.isDigit = true ∨ c ∈ marks := by
  unfold Layout.chars at hc
  rw [List.mem_append, List.mem_append] at hc
  rcases hc with (hc | hc) | hc
  . exact .inl (h.whole c hc)
  . split at hc
    . simp at hc
    . rcases List.mem_cons.mp hc with rfl | hc
      . exact .inr (by decide)
      . exact .inl (h.places c hc)
  . rcases h.exponent with heq | ⟨e, heq⟩ <;> rw [heq] at hc
    . simp at hc
    . exact mem_exponentText hc

theorem Layout.Proper.head {l : Layout} (h : l.Proper) (hfirst : l.chars.head? = some c) :
    c.isDigit = true ∨ c = '.' ∨ c = 'e' := by
  unfold Layout.chars at hfirst
  cases hwhole : l.whole with
  | cons d ds =>
    rw [hwhole] at hfirst
    cases hfirst
    exact .inl (h.whole _ (by simp [hwhole]))
  | nil =>
    rw [hwhole] at hfirst
    cases hplaces : l.places with
    | cons d ds =>
      rw [hplaces] at hfirst
      cases hfirst
      exact .inr (.inl rfl)
    | nil =>
      rw [hplaces] at hfirst
      rcases h.exponent with heq | ⟨e, heq⟩ <;> rw [heq] at hfirst <;> cases hfirst
      exact .inr (.inr rfl)

theorem toList_signed (negative : Bool) (cs : List Char) :
    (signed negative cs).toList = if negative then '-' :: cs else cs :=
  String.toList_ofList

theorem mem_text {x : Binary64} {c : Char} (h : c ∈ x.text.toList) :
    c.isDigit = true ∨ c ∈ marks := by
  have hsigned : ∀ (negative : Bool) (cs : List Char),
      (∀ c ∈ cs, c.isDigit = true ∨ c ∈ marks) → c ∈ (signed negative cs).toList →
      c.isDigit = true ∨ c ∈ marks := by
    intro negative cs hcs hmem
    rw [toList_signed] at hmem
    split at hmem
    . rcases List.mem_cons.mp hmem with rfl | hmem
      . exact .inr (by decide)
      . exact hcs c hmem
    . exact hcs c hmem
  have hnan : ("nan".toList.all fun c => decide (c ∈ marks)) = true := by decide
  have hinf : ("inf".toList.all fun c => decide (c ∈ marks)) = true := by decide
  cases x with
  | nan origin => exact .inr (List.all_iff_forall_prop.mp hnan c h)
  | infinite negative =>
    exact hsigned negative _ (fun c hc => .inr (List.all_iff_forall_prop.mp hinf c hc)) h
  | finite negative m e hcanonical =>
    exact hsigned negative _ (fun c hc => (reads_shortestLayout hcanonical).2.mem_chars hc) h

theorem text_ne_nil (x : Binary64) : x.text.toList ≠ [] := by
  cases x with
  | nan origin => simp [text]
  | infinite negative => cases negative <;> simp [text, toList_signed]
  | finite negative m e h =>
    obtain ⟨-, hproper⟩ := reads_shortestLayout h
    have hne : (shortestLayout m e).chars ≠ [] := by
      unfold Layout.chars
      rcases hproper.fractional with hfractional | hfractional <;> simp [hfractional]
    cases negative <;> simp [text, toList_signed, hne]

theorem exists_mark_text (x : Binary64) : ∃ c ∈ x.text.toList, c.isDigit = false ∧ c ≠ '-' := by
  cases x with
  | nan origin => exact ⟨'n', (by decide : 'n' ∈ "nan".toList), by decide, by decide⟩
  | infinite negative => cases negative <;> exact ⟨'i', by decide, by decide, by decide⟩
  | finite negative m e h =>
    obtain ⟨-, hproper⟩ := reads_shortestLayout h
    have hmark : ∃ c ∈ (shortestLayout m e).chars, c.isDigit = false ∧ c ≠ '-' := by
      unfold Layout.chars
      rcases hproper.fractional with hplaces | hexponent
      . exact ⟨'.', by simp [hplaces], by decide, by decide⟩
      . rcases hproper.exponent with heq | ⟨e, heq⟩
        . exact absurd heq hexponent
        . exact ⟨'e', by simp [heq, exponentText], by decide, by decide⟩
    obtain ⟨c, hc, hmark⟩ := hmark
    refine ⟨c, ?_, hmark⟩
    change c ∈ (signed negative _).toList
    rw [toList_signed]
    split
    . exact List.mem_cons_of_mem _ hc
    . exact hc

theorem signed_inj {negative negative' : Bool} {cs cs' : List Char} (hcs : cs.head? ≠ some '-')
    (hcs' : cs'.head? ≠ some '-') (h : signed negative cs = signed negative' cs') :
    negative = negative' ∧ cs = cs' := by
  have hlist := congrArg String.toList h
  rw [toList_signed, toList_signed] at hlist
  cases negative <;> cases negative'
  . exact ⟨rfl, hlist⟩
  . exact False.elim (hcs (congrArg List.head? hlist))
  . exact False.elim (hcs' (congrArg List.head? hlist.symm))
  . exact ⟨rfl, (List.cons.inj hlist).2⟩

theorem Layout.Proper.head_ne {l : Layout} (h : l.Proper) {c : Char} (hdigit : c.isDigit = false)
    (hpoint : c ≠ '.') (he : c ≠ 'e') : l.chars.head? ≠ some c := by
  intro hfirst
  rcases h.head hfirst with hc | hc | hc
  . rw [hdigit] at hc
    cases hc
  . exact hpoint hc
  . exact he hc

theorem signed_ne_word {m : Nat} {e : Int} (h : Canonical m e) {c : Char} (hdigit : c.isDigit = false)
    (hword : c ∉ ['.', 'e', '-']) (negative other : Bool) (cs : List Char) :
    signed negative (shortestLayout m e).chars ≠ signed other (c :: cs) := by
  obtain ⟨-, hproper⟩ := reads_shortestLayout h
  simp only [List.mem_cons, List.not_mem_nil, or_false, not_or] at hword
  obtain ⟨hpoint, he, hminus⟩ := hword
  intro heq
  obtain ⟨-, heq⟩ := signed_inj (hproper.head_ne (by decide) (by decide) (by decide))
    (by simpa using hminus) heq
  exact hproper.head_ne hdigit hpoint he (by rw [heq]; rfl)

/-- Numbers of one text are one number, unless they are NaNs. -/
theorem text_inj {x y : Binary64} (h : x.text = y.text) :
    x = y ∨ (∃ a, x = .nan a) ∧ ∃ b, y = .nan b := by
  have hword : ∀ (negative : Bool) {m : Nat} {e : Int}, Canonical m e →
      signed negative (shortestLayout m e).chars ≠ "nan"
        ∧ ∀ other, signed negative (shortestLayout m e).chars ≠ signed other "inf".toList :=
    fun negative _ _ hcanonical =>
      ⟨signed_ne_word hcanonical (by decide) (by decide) negative false _,
        fun other => signed_ne_word hcanonical (by decide) (by decide) negative other _⟩
  have hnan : ∀ negative, signed negative "inf".toList ≠ "nan" := by decide
  cases x with
  | nan origin =>
    cases y with
    | nan origin' => exact .inr ⟨⟨_, rfl⟩, _, rfl⟩
    | infinite negative => exact absurd h.symm (hnan negative)
    | finite negative m e hcanonical => exact absurd h.symm (hword negative hcanonical).1
  | infinite negative =>
    cases y with
    | nan origin => exact absurd h (hnan negative)
    | infinite negative' =>
      obtain ⟨rfl, -⟩ := signed_inj (by decide) (by decide) h
      exact .inl rfl
    | finite negative' m e hcanonical => exact absurd h.symm ((hword negative' hcanonical).2 _)
  | finite negative m e hcanonical =>
    cases y with
    | nan origin => exact absurd h (hword negative hcanonical).1
    | infinite negative' => exact absurd h ((hword negative hcanonical).2 _)
    | finite negative' m' e' hcanonical' =>
      obtain ⟨hreads, hproper⟩ := reads_shortestLayout hcanonical
      obtain ⟨hreads', hproper'⟩ := reads_shortestLayout hcanonical'
      obtain ⟨rfl, hchars⟩ := signed_inj
        (hproper.head_ne (by decide) (by decide) (by decide))
        (hproper'.head_ne (by decide) (by decide) (by decide)) h
      rw [← Layout.chars_inj hproper hproper' hchars] at hreads'
      have hnonneg : 0 ≤ (shortestLayout m e).value :=
        mul_nonneg (Nat.cast_nonneg _) (zpow_nonneg (by norm_num) _)
      obtain ⟨rfl, rfl⟩ := hreads.unique hnonneg hreads'
      exact .inl rfl

end Binary64
end ForwardChaining
