import ForwardChaining.Text.Quoted
import Mathlib.Tactic.IntervalCases

/-!
This module contains the reading of quoted text. A character between quotes can be read back, so a text
between quotes is known, and so is where it ends.
-/

namespace ForwardChaining.Text

/-! ### Hexadecimal digits -/

/-- The value of a hexadecimal digit. -/
def hexValue (c : Char) : Nat :=
  if c.isDigit then c.toNat - '0'.toNat else c.toNat - 'a'.toNat + 10

/-- The number that hexadecimal digits stand for. -/
def natOfHex (digits : List Char) : Nat :=
  digits.foldl (fun n c => 16 * n + hexValue c) 0

theorem hexValue_digitChar {n : Nat} (h : n < 16) : hexValue n.digitChar = n := by
  interval_cases n <;> decide

theorem natOfHex_append_digit (digits : List Char) (c : Char) :
    natOfHex (digits ++ [c]) = 16 * natOfHex digits + hexValue c := by
  simp [natOfHex]

theorem natOfHex_toDigits (n : Nat) : natOfHex (Nat.toDigits 16 n) = n := by
  induction n using Nat.strongRecOn with
  | ind n ih =>
    by_cases hsmall : n < 16
    . rw [Nat.toDigits_of_lt_base hsmall]
      simp [natOfHex, hexValue_digitChar hsmall]
    . rw [Nat.toDigits_of_base_le (by decide) (by omega), natOfHex_append_digit, ih (n / 16) (by omega),
        hexValue_digitChar (Nat.mod_lt _ (by decide))]
      omega

theorem natOfHex_hex (width n : Nat) : natOfHex (hex width n) = n := by
  have hzeros : ∀ k, (List.replicate k '0').foldl (fun n c => 16 * n + hexValue c) 0 = 0 := by
    intro k
    induction k with
    | zero => rfl
    | succ k ih => exact ih
  unfold hex natOfHex
  rw [List.foldl_append, hzeros]
  exact natOfHex_toDigits n

theorem length_hex {width n : Nat} (hwidth : 0 < width) (h : n < 16 ^ width) :
    (hex width n).length = width := by
  have hlength := (Nat.length_toDigits_le_iff (b := 16) (by decide) hwidth).mpr h
  unfold hex
  rw [List.length_append, List.length_replicate]
  omega

/-! ### Characters between quotes -/

/-- Read the first character between quotes, with what stands behind it. -/
def readQuotedChar : List Char → Option (Char × List Char)
  | '\\' :: c :: cs =>
    let code (width : Nat) := (Char.ofNat (natOfHex (cs.take width)), cs.drop width)
    if c = 'n' then some ('\n', cs)
    else if c = 'r' then some ('\r', cs)
    else if c = 't' then some ('\t', cs)
    else if c = 'x' then some (code 2)
    else if c = 'u' then some (code 4)
    else if c = 'U' then some (code 8)
    else some (c, cs)
  | c :: cs => some (c, cs)
  | [] => none

theorem readQuotedChar_of_ne {c : Char} (h : c ≠ '\\') (cs : List Char) :
    readQuotedChar (c :: cs) = some (c, cs) := by
  unfold readQuotedChar
  split
  . next heq =>
    cases heq
    exact absurd rfl h
  . next heq =>
    cases heq
    rfl
  . next heq => cases heq

theorem readQuotedChar_escapeCode (c : Char) (rest : List Char) :
    readQuotedChar (escapeCode c ++ rest) = some (c, rest) := by
  have hvalid : c.toNat < 16 ^ 8 := by
    have hc := c.valid
    simp only [UInt32.isValidChar, Nat.isValidChar] at hc
    simp only [Char.toNat]
    omega
  have hcode : ∀ width, 0 < width → c.toNat < 16 ^ width →
      Char.ofNat (natOfHex ((hex width c.toNat ++ rest).take width)) = c
        ∧ (hex width c.toNat ++ rest).drop width = rest := by
    intro width hwidth hless
    have hlength := length_hex hwidth hless
    rw [List.take_append_of_le_length hlength.ge, List.take_of_length_le hlength.le,
      List.drop_append_of_le_length hlength.ge, List.drop_of_length_le hlength.le, natOfHex_hex,
      Char.ofNat_toNat]
    exact ⟨rfl, rfl⟩
  unfold escapeCode
  dsimp only
  split
  . obtain ⟨hchar, hrest⟩ := hcode 2 (by decide) (by omega)
    simp [readQuotedChar, hchar, hrest]
  . split
    . obtain ⟨hchar, hrest⟩ := hcode 4 (by decide) (by omega)
      simp [readQuotedChar, hchar, hrest]
    . obtain ⟨hchar, hrest⟩ := hcode 8 (by decide) hvalid
      simp [readQuotedChar, hchar, hrest]

/--
If each character can be read back from how it is written, and no character is taken for the quote at the
end, then a text is known, and so is where it ends.
-/
theorem flatMap_append_inj {write : Char → List Char}
    {read : List Char → Option (Char × List Char)} {quote : Char}
    (hread : ∀ c rest, read (write c ++ rest) = some (c, rest))
    (hquote : ∀ c rest, (write c ++ rest).head? ≠ some quote) {cs cs' rest rest' : List Char}
    (h : cs.flatMap write ++ quote :: rest = cs'.flatMap write ++ quote :: rest') :
    cs = cs' ∧ rest = rest' := by
  induction cs generalizing cs' with
  | nil =>
    cases cs' with
    | nil => exact ⟨rfl, (List.cons.inj h).2⟩
    | cons c' cs' =>
      rw [List.flatMap_cons, List.append_assoc] at h
      exact False.elim (hquote c' _ (by rw [← h]; rfl))
  | cons c cs ih =>
    cases cs' with
    | nil =>
      rw [List.flatMap_cons, List.append_assoc] at h
      exact False.elim (hquote c _ (by rw [h]; rfl))
    | cons c' cs' =>
      rw [List.flatMap_cons, List.flatMap_cons, List.append_assoc, List.append_assoc] at h
      have heq := congrArg read h
      rw [hread, hread, Option.some.injEq, Prod.mk.injEq] at heq
      obtain ⟨rfl, hbehind⟩ := heq
      obtain ⟨rfl, heq⟩ := ih hbehind
      exact ⟨rfl, heq⟩

/-- The two characters that texts are quoted with. -/
def IsQuote (quote : Char) : Prop :=
  quote = '\'' ∨ quote = '"'

theorem isQuote_quoteFor (cs : List Char) : IsQuote (quoteFor cs) := by
  unfold quoteFor
  split
  . exact .inr rfl
  . exact .inl rfl

section Quote

variable {quote : Char} (hquote : IsQuote quote)

include hquote

theorem readQuotedChar_quoteChar (c : Char) (rest : List Char) :
    readQuotedChar (quoteChar quote c ++ rest) = some (c, rest) := by
  unfold quoteChar
  split
  . next h =>
    have hc : c = '\'' ∨ c = '"' ∨ c = '\\' := by
      rw [Bool.or_eq_true, beq_iff_eq, beq_iff_eq] at h
      rcases h with rfl | h
      . rcases hquote with h | h
        . exact .inl h
        . exact .inr (.inl h)
      . exact .inr (.inr h)
    rcases hc with rfl | rfl | rfl <;> rfl
  next hplain =>
  split
  . next h =>
    rw [beq_iff_eq.mp h]
    rfl
  split
  . next h =>
    rw [beq_iff_eq.mp h]
    rfl
  split
  . next h =>
    rw [beq_iff_eq.mp h]
    rfl
  split
  . apply readQuotedChar_of_ne
    intro heq
    simp [heq] at hplain
  . exact readQuotedChar_escapeCode c rest

theorem head?_quoteChar (c : Char) (rest : List Char) :
    (quoteChar quote c ++ rest).head? ≠ some quote := by
  have hslash : quote ≠ '\\' := by
    rcases hquote with rfl | rfl <;> decide
  intro hhead
  unfold quoteChar at hhead
  split at hhead
  . cases hhead
    exact hslash rfl
  next hplain =>
  split at hhead
  . cases hhead
    exact hslash rfl
  split at hhead
  . cases hhead
    exact hslash rfl
  split at hhead
  . cases hhead
    exact hslash rfl
  split at hhead
  . cases hhead
    simp at hplain
  . unfold escapeCode at hhead
    dsimp only at hhead
    split at hhead
    . cases hhead
      exact hslash rfl
    . split at hhead <;> cases hhead <;> exact hslash rfl

theorem quoteChars_append_inj {cs cs' rest rest' : List Char}
    (h : cs.flatMap (quoteChar quote) ++ quote :: rest
      = cs'.flatMap (quoteChar quote) ++ quote :: rest') : cs = cs' ∧ rest = rest' :=
  flatMap_append_inj (readQuotedChar_quoteChar hquote) (head?_quoteChar hquote) h

end Quote

theorem quotedChars_append_inj {cs cs' rest rest' : List Char}
    (h : quotedChars cs ++ rest = quotedChars cs' ++ rest') : cs = cs' ∧ rest = rest' := by
  unfold quotedChars at h
  dsimp only at h
  rw [List.cons_append, List.cons_append, List.cons.injEq, List.append_assoc, List.append_assoc] at h
  obtain ⟨hquote, h⟩ := h
  rw [← hquote] at h
  exact quoteChars_append_inj (isQuote_quoteFor cs) h

end ForwardChaining.Text
