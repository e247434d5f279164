import ForwardChaining.Text.Basic

/-!
This module contains the reading of decimal digits: the number that they stand for, and where a run of
them ends.
-/

namespace ForwardChaining.Text

-- powers are those of the core library, also in the presence of others
attribute [local instance (high)] instPowNat

/-! ### Runs -/

section Run

variable {p : Char → Bool} {run run' rest rest' : List Char}

theorem split_run (h : ∀ c ∈ run, p c = true) (hrest : ∀ c ∈ rest.head?, p c = false) :
    (run ++ rest).takeWhile p = run ∧ (run ++ rest).dropWhile p = rest := by
  have hback : rest.takeWhile p = [] ∧ rest.dropWhile p = rest := by
    cases rest with
    | nil => exact ⟨rfl, rfl⟩
    | cons c rest =>
      have hc := hrest c rfl
      simp [hc]
  rw [List.takeWhile_append_of_pos h, List.dropWhile_append_of_pos h, hback.1, hback.2]
  exact ⟨List.append_nil _, rfl⟩

theorem run_append_inj (h : ∀ c ∈ run, p c = true) (h' : ∀ c ∈ run', p c = true)
    (hrest : ∀ c ∈ rest.head?, p c = false) (hrest' : ∀ c ∈ rest'.head?, p c = false)
    (heq : run ++ rest = run' ++ rest') : run = run' ∧ rest = rest' := by
  obtain ⟨htake, hdrop⟩ := split_run h hrest
  obtain ⟨htake', hdrop'⟩ := split_run h' hrest'
  rw [heq] at htake hdrop
  exact ⟨htake.symm.trans htake', hdrop.symm.trans hdrop'⟩

end Run

/-! ### Numbers -/

theorem natOfDigits_eq (digits : List Char) : natOfDigits digits = Nat.ofDigitChars 10 digits 0 := by
  rw [Nat.ofDigitChars_eq_foldl]
  rfl

theorem natOfDigits_append (front back : List Char) :
    natOfDigits (front ++ back) = natOfDigits front * 10 ^ back.length + natOfDigits back := by
  simp only [natOfDigits_eq, Nat.ofDigitChars_append]
  rw [Nat.ofDigitChars_eq_ofDigitChars_zero, Nat.mul_comm]

theorem natOfDigits_zeros (n : Nat) : natOfDigits (List.replicate n '0') = 0 := by
  rw [natOfDigits_eq, Nat.ofDigitChars_replicate_zero, Nat.mul_zero]

theorem natOfDigits_toDigits (n : Nat) : natOfDigits (Nat.toDigits 10 n) = n := by
  rw [natOfDigits_eq, Nat.ofDigitChars_ten_toDigits]

/-- All characters are decimal digits. -/
def AllDigits (cs : List Char) : Prop :=
  ∀ c ∈ cs, c.isDigit = true

theorem allDigits_toDigits (n : Nat) : AllDigits (Nat.toDigits 10 n) :=
  fun _ hc => Nat.isDigit_of_mem_toDigits (by decide) (by decide) hc

theorem allDigits_zeros (n : Nat) : AllDigits (List.replicate n '0') := by
  intro c hc
  rw [List.eq_of_mem_replicate hc]
  rfl

theorem AllDigits.append {cs cs' : List Char} (h : AllDigits cs) (h' : AllDigits cs') :
    AllDigits (cs ++ cs') := by
  intro c hc
  rcases List.mem_append.mp hc with hc | hc
  . exact h c hc
  . exact h' c hc

theorem AllDigits.subset {cs cs' : List Char} (h : AllDigits cs) (hsub : ∀ c ∈ cs', c ∈ cs) :
    AllDigits cs' :=
  fun c hc => h c (hsub c hc)

/-- What follows some digits does not begin with another one. -/
def EndsDigits (cs : List Char) : Prop :=
  ∀ c ∈ cs.head?, c.isDigit = false

theorem toList_ofNat (n : Nat) : (ofNat n).toList = Nat.toDigits 10 n :=
  String.toList_ofList

theorem ofNat_inj {n n' : Nat} (h : ofNat n = ofNat n') : n = n' := by
  rw [← natOfDigits_toDigits n, ← natOfDigits_toDigits n', ← toList_ofNat, ← toList_ofNat, h]

theorem toList_ofInt_negSucc (n : Nat) :
    (ofInt (.negSucc n)).toList = '-' :: Nat.toDigits 10 (n + 1) := by
  unfold ofInt
  rw [String.toList_append, toList_ofNat]
  rfl

theorem mem_ofInt {n : Int} {c : Char} (h : c ∈ (ofInt n).toList) : c.isDigit = true ∨ c = '-' := by
  cases n with
  | ofNat n => exact .inl (allDigits_toDigits n c (toList_ofNat n ▸ h))
  | negSucc n =>
    rw [toList_ofInt_negSucc] at h
    rcases List.mem_cons.mp h with rfl | h
    . exact .inr rfl
    . exact .inl (allDigits_toDigits _ c h)

theorem ofInt_ne_nil (n : Int) : (ofInt n).toList ≠ [] := by
  cases n with
  | ofNat n =>
    change (ofNat n).toList ≠ []
    rw [toList_ofNat]
    exact Nat.toDigits_ne_nil
  | negSucc n =>
    rw [toList_ofInt_negSucc]
    simp

theorem ofInt_inj {n n' : Int} (h : ofInt n = ofInt n') : n = n' := by
  have hsign : ∀ n m : Nat, ofInt (.ofNat n) ≠ ofInt (.negSucc m) := by
    intro n m heq
    have hlist := congrArg String.toList heq
    rw [toList_ofInt_negSucc] at hlist
    have hminus : '-' ∈ (ofInt (.ofNat n)).toList := by
      rw [hlist]
      exact List.mem_cons_self
    exact absurd (allDigits_toDigits n '-' (toList_ofNat n ▸ hminus)) (by decide)
  cases n with
  | ofNat n =>
    cases n' with
    | ofNat n' => rw [ofNat_inj h]
    | negSucc n' => exact absurd h (hsign n n')
  | negSucc n =>
    cases n' with
    | ofNat n' => exact absurd h.symm (hsign n' n)
    | negSucc n' =>
      have hlist := congrArg String.toList h
      rw [toList_ofInt_negSucc, toList_ofInt_negSucc, List.cons.injEq] at hlist
      have heq : n + 1 = n' + 1 := by
        rw [← natOfDigits_toDigits (n + 1), hlist.2, natOfDigits_toDigits]
      rw [Nat.add_right_cancel heq]

end ForwardChaining.Text
