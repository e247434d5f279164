import ForwardChaining.Proofs.Json
import ForwardChaining.Proofs.Text.Quoted
import ForwardChaining.Proofs.Text.Separated
import ForwardChaining.Proofs.Value.Literal

/-!
This module contains what the text of a document in the style of digests tells: everything but which NaN a
NaN is, and in which order the fields of an object stand. The text also tells where it ends.
-/

namespace ForwardChaining.Json

open Text

/-! ### Characters between quotes -/

/-- The unit that four digits stand for, with what stands behind them. -/
def readUnit (cs : List Char) : Nat × List Char :=
  (natOfHex (cs.take 4), cs.drop 4)

/-- Read the first character between quotes, with what stands behind it. -/
def readChar : List Char → Option (Char × List Char)
  | '\\' :: c :: cs =>
    if c = 'n' then some ('\n', cs)
    else if c = 'r' then some ('\r', cs)
    else if c = 't' then some ('\t', cs)
    else if c = 'b' then some (Char.ofNat 8, cs)
    else if c = 'f' then some (Char.ofNat 12, cs)
    else if c = 'u' then
      let (unit, cs) := readUnit cs
      -- a high surrogate stands for a character together with the unit behind it
      if 0xd800 ≤ unit ∧ unit < 0xdc00 then
        let (low, cs) := readUnit (cs.drop 2)
        some (Char.ofNat (0x10000 + (unit - 0xd800) * 0x400 + (low - 0xdc00)), cs)
      else some (Char.ofNat unit, cs)
    else some (c, cs)
  | c :: cs => some (c, cs)
  | [] => none

attribute [local simp] readChar

theorem readUnit_hex {n : Nat} (h : n < 0x10000) (rest : List Char) :
    readUnit (hex 4 n ++ rest) = (n, rest) := by
  have hlength : (hex 4 n).length = 4 := length_hex (by decide) h
  rw [readUnit, List.take_append_of_le_length hlength.ge, List.take_of_length_le hlength.le,
    List.drop_append_of_le_length hlength.ge, List.drop_of_length_le hlength.le, natOfHex_hex,
    List.nil_append]

theorem readChar_of_ne {c : Char} (h : c ≠ '\\') (cs : List Char) :
    readChar (c :: cs) = some (c, cs) := by
  unfold readChar
  split
  . next heq =>
    cases heq
    exact absurd rfl h
  . next heq =>
    cases heq
    rfl
  . next heq => cases heq

theorem readChar_escapeUnit {c : Char} (hsmall : c.toNat < 0x10000)
    (hplain : ¬ (0xd800 ≤ c.toNat ∧ c.toNat < 0xdc00)) (rest : List Char) :
    readChar (escapeUnit c.toNat ++ rest) = some (c, rest) := by
  have hunit := readUnit_hex hsmall rest
  simp [escapeUnit, hunit, hplain, Char.ofNat_toNat]

theorem readChar_surrogates {c : Char} {high low : Nat} (hhigh : 0xd800 ≤ high ∧ high < 0xdc00)
    (hlow : low < 0x10000) (hcode : 0x10000 + (high - 0xd800) * 0x400 + (low - 0xdc00) = c.toNat)
    (rest : List Char) :
    readChar (escapeUnit high ++ (escapeUnit low ++ rest)) = some (c, rest) := by
  have hunit := readUnit_hex (n := high) (by omega) (escapeUnit low ++ rest)
  have hunit' := readUnit_hex hlow rest
  simp only [escapeUnit, List.cons_append] at hunit ⊢
  simp [hunit, hunit', hhigh, hcode, Char.ofNat_toNat]

theorem readChar_escapeCode (c : Char) (rest : List Char) :
    readChar (escapeCode c ++ rest) = some (c, rest) := by
  have hvalid : c.toNat < 0xd800 ∨ 0xdfff < c.toNat ∧ c.toNat < 0x110000 := c.valid
  unfold escapeCode
  dsimp only
  split
  . next hsmall => exact readChar_escapeUnit hsmall (by omega) rest
  . next hlarge =>
    rw [List.append_assoc]
    exact readChar_surrogates (by omega) (by omega) (by omega) rest

theorem readChar_escapeChar (c : Char) (rest : List Char) :
    readChar (escapeChar true c ++ rest) = some (c, rest) := by
  have hcode : ∀ {n : Nat}, (c.toNat == n) = true → c = Char.ofNat n := fun h => by
    rw [← Char.ofNat_toNat c, beq_iff_eq.mp h]
  unfold escapeChar
  split
  . next h => simp [beq_iff_eq.mp h]
  split
  . next h => simp [beq_iff_eq.mp h]
  next hslash =>
  split
  . next h => simp [beq_iff_eq.mp h]
  split
  . next h => simp [beq_iff_eq.mp h]
  split
  . next h => simp [beq_iff_eq.mp h]
  split
  . next h => simp [hcode h]
  split
  . next h => simp [hcode h]
  split
  . exact readChar_escapeCode c rest
  . exact readChar_of_ne (by simpa using hslash) rest

theorem head?_escapeCode (c : Char) (rest : List Char) :
    (escapeCode c ++ rest).head? = some '\\' := by
  unfold escapeCode
  dsimp only
  split <;> rfl

theorem head?_escapeChar (c : Char) (rest : List Char) :
    (escapeChar true c ++ rest).head? ≠ some '"' := by
  unfold escapeChar
  split
  . simp
  next hquote =>
  split
  . simp
  split
  . simp
  split
  . simp
  split
  . simp
  split
  . simp
  split
  . simp
  split
  . rw [head?_escapeCode]
    decide
  . simpa using hquote

theorem quote_append_inj {s t : String} {rest rest' : List Char}
    (h : (quote true s).toList ++ rest = (quote true t).toList ++ rest') : s = t ∧ rest = rest' := by
  simp only [quote, String.toList_ofList, List.cons_append, List.append_assoc, List.nil_append,
    List.cons.injEq, true_and] at h
  obtain ⟨heq, hrest⟩ := flatMap_append_inj readChar_escapeChar head?_escapeChar h
  exact ⟨String.toList_inj.mp heq, hrest⟩

/-! ### Numbers -/

theorem not_stop_floatText {x : Binary64} {c : Char} (h : c ∈ (floatText x).toList) :
    isStop c = false := by
  have hwords : ∀ c ∈ "NaN".toList ++ "Infinity".toList ++ "-Infinity".toList, isStop c = false :=
    List.all_iff_forall_prop.mp (by decide)
  cases x with
  | nan origin => exact hwords c (List.mem_append_left _ (List.mem_append_left _ h))
  | infinite negative =>
    cases negative with
    | false => exact hwords c (List.mem_append_left _ (List.mem_append_right _ h))
    | true => exact hwords c (List.mem_append_right _ h)
  | finite negative m e hcanonical => exact Value.not_stop_of_numeral (Binary64.mem_text h)

theorem ofInt_ne_floatText (n : Int) (x : Binary64) : ofInt n ≠ floatText x := by
  intro h
  have hmark : ∃ c ∈ (floatText x).toList, c.isDigit = false ∧ c ≠ '-' := by
    cases x with
    | nan origin => exact ⟨'N', (by decide : 'N' ∈ "NaN".toList), by decide, by decide⟩
    | infinite negative => cases negative <;> exact ⟨'I', by decide, by decide, by decide⟩
    | finite negative m e hcanonical => exact Binary64.exists_mark_text (.finite negative m e hcanonical)
  obtain ⟨c, hc, hdigit, hminus⟩ := hmark
  rw [← h] at hc
  rcases mem_ofInt hc with hyes | hyes
  . rw [hdigit] at hyes
    cases hyes
  . exact hminus hyes

theorem floatText_erase (x : Binary64) : floatText x.erase = floatText x := by
  cases x <;> rfl

theorem floatText_infinite (negative : Bool) :
    floatText (.infinite negative) = Binary64.signed negative "Infinity".toList := by
  cases negative <;> rfl

/-- Numbers of one text are one number, unless they are NaNs. -/
theorem floatText_inj {x y : Binary64} (h : floatText x = floatText y) : x.erase = y.erase := by
  have hinfinite : ∀ negative, "NaN" ≠ floatText (.infinite negative) := by decide
  have hfinite : ∀ (negative : Bool) {m : Nat} {e : Int} (hcanonical : Canonical m e)
      (y : Binary64), floatText (.finite negative m e hcanonical) = floatText y →
        Binary64.erase (.finite negative m e hcanonical) = y.erase := by
    intro negative m e hcanonical y heq
    cases y with
    | nan origin =>
      exact absurd heq (Binary64.signed_ne_word hcanonical (by decide) (by decide) negative false _)
    | infinite negative' =>
      rw [floatText_infinite] at heq
      exact absurd heq
        (Binary64.signed_ne_word hcanonical (by decide) (by decide) negative negative' _)
    | finite negative' m' e' hcanonical' =>
      rcases Binary64.text_inj (x := .finite ..) (y := .finite ..) heq with heq | ⟨⟨a, hnan⟩, -⟩
      . rw [heq]
      . cases hnan
  cases x with
  | finite negative m e hcanonical => exact hfinite negative hcanonical y h
  | nan origin =>
    cases y with
    | nan origin' => rfl
    | infinite negative => exact absurd h (hinfinite negative)
    | finite negative m e hcanonical => exact (hfinite negative hcanonical _ h.symm).symm
  | infinite negative =>
    cases y with
    | nan origin => exact absurd h.symm (hinfinite negative)
    | infinite negative' =>
      cases negative <;> cases negative' <;> first | rfl | exact absurd h (by decide)
    | finite negative' m e hcanonical => exact (hfinite negative' hcanonical _ h.symm).symm

/-! ### What a document begins with -/

/-- The characters of the text of a document. -/
def chars (x : Json) : List Char :=
  (x.render canonical).toList

/-- The characters of a member of an object. -/
def memberChars (member : String × Json) : List Char :=
  (quote true member.1).toList ++ ':' :: ' ' :: member.2.chars

theorem chars_array (items : List Json) : chars (.array items) = bracketed chars '[' ']' items := by
  rw [chars, render_array]
  exact toList_bracketed rfl rfl _ _

theorem chars_object (fields : List (String × Json)) :
    chars (.object fields) = bracketed memberChars '\x7b' '\x7d' (sortByKey fields) := by
  have hmember (member : String × Json) :
      (quote true member.1 ++ ": " ++ member.2.render canonical).toList = memberChars member := by
    simp [memberChars, chars]
  have hsorted : canonical.sorted = true := rfl
  rw [chars, render, renderFields_eq_map, hsorted, if_pos rfl, sortByKey_map, List.map_map,
    ← funext hmember]
  exact toList_bracketed rfl rfl _ _

/-- The kinds of documents that differ in their first character. -/
inductive Shape where
  | null
  | yes
  | no
  | number
  | text
  | array
  | object
  /-- No document begins so. -/
  | other
deriving DecidableEq

/-- The characters other than digits that numbers begin with. -/
def openingMarks : List Char :=
  ['-', '.', 'e', 'N', 'I']

/-- The kind of a document that begins with a character. -/
def Shape.ofHead (c : Char) : Shape :=
  if c = 'n' then .null
  else if c = 't' then .yes
  else if c = 'f' then .no
  else if c = '"' then .text
  else if c = '[' then .array
  else if c = '\x7b' then .object
  else if c.isDigit ∨ c ∈ openingMarks then .number
  else .other

/-- The kind of the document. -/
def shape : Json → Shape
  | .null => .null
  | .bool true => .yes
  | .bool false => .no
  | .int _ => .number
  | .float _ => .number
  | .text _ => .text
  | .array _ => .array
  | .object _ => .object

theorem Shape.ofHead_number {c : Char} (h : c.isDigit = true ∨ c ∈ openingMarks) :
    ofHead c = .number := by
  have hne : ∀ other ∈ ['n', 't', 'f', '"', '[', '\x7b'], c ≠ other := by
    rintro other hother rfl
    have hdigit : ∀ c ∈ ['n', 't', 'f', '"', '[', '\x7b'], c.isDigit = false ∧ c ∉ openingMarks :=
      List.all_iff_forall_prop.mp (by decide)
    rcases h with h | h
    . rw [(hdigit _ hother).1] at h
      cases h
    . exact (hdigit _ hother).2 h
  simp only [List.forall_mem_cons] at hne
  obtain ⟨h1, h2, h3, h4, h5, h6, -⟩ := hne
  simp [ofHead, h1, h2, h3, h4, h5, h6, h]

theorem exists_chars_int (n : Int) :
    ∃ c rest, chars (.int n) = c :: rest ∧ Shape.ofHead c = .number := by
  cases hchars : (ofInt n).toList with
  | nil => exact absurd hchars (ofInt_ne_nil n)
  | cons c rest =>
    refine ⟨c, rest, hchars, Shape.ofHead_number ?_⟩
    rcases mem_ofInt (n := n) (by rw [hchars]; exact List.mem_cons_self) with hc | rfl
    . exact .inl hc
    . exact .inr (by decide)

theorem exists_chars_float (x : Binary64) :
    ∃ c rest, chars (.float x) = c :: rest ∧ Shape.ofHead c = .number := by
  cases x with
  | nan origin => exact ⟨'N', ['a', 'N'], (by decide : "NaN".toList = _), by decide⟩
  | infinite negative => cases negative <;> exact ⟨_, _, rfl, by decide⟩
  | finite negative m e hcanonical =>
    cases hchars : (Binary64.text (.finite negative m e hcanonical)).toList with
    | nil => exact absurd hchars (Binary64.text_ne_nil _)
    | cons c rest =>
      refine ⟨c, rest, hchars, Shape.ofHead_number ?_⟩
      rw [Binary64.text, Binary64.toList_signed] at hchars
      split at hchars
      . cases hchars
        exact .inr (by decide)
      . obtain ⟨-, hproper⟩ := Binary64.reads_shortestLayout hcanonical
        rcases hproper.head (c := c) (by rw [hchars]; rfl) with hc | rfl | rfl
        . exact .inl hc
        . exact .inr (by decide)
        . exact .inr (by decide)

theorem exists_chars (x : Json) : ∃ c rest, x.chars = c :: rest ∧ Shape.ofHead c = x.shape := by
  match x with
  | .null => exact ⟨_, _, rfl, rfl⟩
  | .bool true => exact ⟨_, _, rfl, rfl⟩
  | .bool false => exact ⟨_, _, rfl, rfl⟩
  | .int n => exact exists_chars_int n
  | .float z => exact exists_chars_float z
  | .text s => exact ⟨_, _, String.toList_ofList, rfl⟩
  | .array items =>
    rw [chars_array]
    cases items <;> exact ⟨_, _, rfl, rfl⟩
  | .object fields =>
    rw [chars_object]
    cases sortByKey fields <;> exact ⟨_, _, rfl, rfl⟩

/-- The documents of a kind. -/
def Shape.Of (x : Json) : Shape → Prop
  | .null => x = .null
  | .yes => x = .bool true
  | .no => x = .bool false
  | .number => (∃ n, x = .int n) ∨ ∃ z, x = .float z
  | .text => ∃ s, x = .text s
  | .array => ∃ items, x = .array items
  | .object => ∃ fields, x = .object fields
  | .other => False

theorem of_shape (x : Json) : Shape.Of x x.shape := by
  match x with
  | .null | .bool true | .bool false => rfl
  | .int n => exact .inl ⟨n, rfl⟩
  | .float z => exact .inr ⟨z, rfl⟩
  | .text s => exact ⟨s, rfl⟩
  | .array items => exact ⟨items, rfl⟩
  | .object fields => exact ⟨fields, rfl⟩

theorem of_shape_of_append {x y : Json} {rest rest' : List Char}
    (h : x.chars ++ rest = y.chars ++ rest') : Shape.Of y x.shape := by
  obtain ⟨c, cs, hx, hc⟩ := exists_chars x
  obtain ⟨d, ds, hy, hd⟩ := exists_chars y
  rw [hx, hy] at h
  rw [← hc, (List.cons.inj h).1, hd]
  exact of_shape y

/-! ### Where a document ends -/

/-- The text of the document tells where it ends. -/
def Ends (x : Json) : Prop :=
  Tells chars (render canonical) x

theorem not_stop_of_number {x : Json} (h : Shape.Of x .number) {c : Char} (hc : c ∈ x.chars) :
    isStop c = false := by
  rcases h with ⟨n, rfl⟩ | ⟨z, rfl⟩
  . rcases mem_ofInt hc with hc | rfl
    . exact Value.not_stop_of_numeral (.inl hc)
    . rfl
  . exact not_stop_floatText hc

theorem ends_number {x : Json} (hx : x.shape = .number) : Ends x := by
  intro y rest rest' hrest hrest' h
  have hofx := of_shape x
  have hofy := of_shape_of_append h
  rw [hx] at hofx hofy
  obtain ⟨hchars, heq⟩ := plain_append_inj (fun _ => not_stop_of_number hofx)
    (fun _ => not_stop_of_number hofy) hrest hrest' h
  exact ⟨String.toList_inj.mp hchars, heq⟩

theorem ends_word {x : Json} (h : ∀ y, Shape.Of y x.shape → y = x) : Ends x := by
  intro y rest rest' hrest hrest' heq
  have hy := h y (of_shape_of_append heq)
  subst hy
  exact ⟨rfl, List.append_cancel_left heq⟩

theorem ends_text (s : String) : Ends (.text s) := by
  intro y rest rest' hrest hrest' h
  obtain ⟨t, rfl⟩ := of_shape_of_append h
  obtain ⟨rfl, heq⟩ := quote_append_inj h
  exact ⟨rfl, heq⟩

theorem not_empty_brackets {x : Json} {closing : Char} (h : isStop closing = true)
    {rest rest' : List Char} : x.chars ++ rest ≠ closing :: rest' := by
  intro heq
  obtain ⟨c, cs, hchars, hshape⟩ := exists_chars x
  rw [hchars] at heq
  have hother : ∀ c ∈ [',', ')', ']', '\x7d'], Shape.ofHead c = .other :=
    List.all_iff_forall_prop.mp (by decide)
  have hof := of_shape x
  rw [← hshape, (List.cons.inj heq).1, hother closing (mem_of_isStop h)] at hof
  exact hof

theorem array_append_inj {xs ys : List Json} (hxs : ∀ x ∈ xs, Ends x) {rest rest' : List Char}
    (h : chars (.array xs) ++ rest = chars (.array ys) ++ rest') :
    xs.map (render canonical) = ys.map (render canonical) ∧ rest = rest' := by
  rw [chars_array, chars_array] at h
  exact bracketed_append_inj rfl (by decide) (fun _ _ _ => not_empty_brackets rfl) hxs h

/-- A member with the text of its value. -/
def written (member : String × Json) : String × String :=
  (member.1, member.2.render canonical)

theorem tells_memberChars {member : String × Json} (h : Ends member.2) :
    Tells memberChars written member := by
  intro member' rest rest' hrest hrest' heq
  simp only [memberChars, List.append_assoc, List.cons_append] at heq
  obtain ⟨hkey, hvalue⟩ := quote_append_inj heq
  simp only [List.cons.injEq, true_and] at hvalue
  obtain ⟨htext, hend⟩ := h _ _ _ hrest hrest' hvalue
  exact ⟨Prod.ext hkey htext, hend⟩

theorem object_append_inj {xs ys : List (String × Json)} (hxs : ∀ member ∈ xs, Ends member.2)
    {rest rest' : List Char} (h : chars (.object xs) ++ rest = chars (.object ys) ++ rest') :
    (sortByKey xs).map written = (sortByKey ys).map written ∧ rest = rest' := by
  rw [chars_object, chars_object] at h
  refine bracketed_append_inj rfl (by decide) ?_ ?_ h
  . intro member rest rest' heq
    simp [memberChars, quote, String.toList_ofList] at heq
  . exact fun member hmember =>
      tells_memberChars (hxs member ((perm_sortByKey xs).mem_iff.mp hmember))

mutual

-- The parts of a document tell where they end, so between brackets each is read up to its end.
theorem ends (x : Json) : Ends x := by
  match x with
  | .null | .bool true | .bool false => exact ends_word fun y hy => hy
  | .int n => exact ends_number rfl
  | .float z => exact ends_number rfl
  | .text s => exact ends_text s
  | .array items =>
    intro y rest rest' hrest hrest' h
    obtain ⟨items', rfl⟩ := of_shape_of_append h
    obtain ⟨htexts, heq⟩ := array_append_inj (ends_items items) h
    exact ⟨by rw [render_array, render_array, htexts], heq⟩
  | .object fields =>
    intro y rest rest' hrest hrest' h
    obtain ⟨fields', rfl⟩ := of_shape_of_append h
    obtain ⟨htexts, heq⟩ := object_append_inj (ends_fields fields) h
    refine ⟨SameText.of_fields ?_, heq⟩
    rw [renderFields_eq_map, renderFields_eq_map, sortByKey_map, sortByKey_map]
    exact htexts

theorem ends_items (items : List Json) : ∀ x ∈ items, Ends x := by
  match items with
  | [] => exact List.forall_mem_nil _
  | x :: xs => exact List.forall_mem_cons.mpr ⟨ends x, ends_items xs⟩

theorem ends_fields (fields : List (String × Json)) : ∀ field ∈ fields, Ends field.2 := by
  match fields with
  | [] => exact List.forall_mem_nil _
  | (key, x) :: fields => exact List.forall_mem_cons.mpr ⟨ends x, ends_fields fields⟩

end

/-! ### Documents of one text -/

namespace SameText

theorem chars_eq {x y : Json} (h : SameText x y) : x.chars ++ [] = y.chars ++ [] :=
  congrArg (fun s => s.toList ++ []) h

theorem shape {x y : Json} (h : SameText x y) : Shape.Of y x.shape :=
  of_shape_of_append h.chars_eq

@[simp]
theorem bool_iff {b c : Bool} : SameText (.bool b) (.bool c) ↔ b = c := by
  cases b <;> cases c <;> simp [SameText, render]

@[simp]
theorem int_iff {n m : Int} : SameText (.int n) (.int m) ↔ n = m :=
  ⟨fun h => ofInt_inj h, fun h => h ▸ .refl _⟩

@[simp]
theorem text_iff {s t : String} : SameText (.text s) (.text t) ↔ s = t :=
  ⟨fun h => (quote_append_inj h.chars_eq).1, fun h => h ▸ .refl _⟩

theorem float_iff {x y : Binary64} : SameText (.float x) (.float y) ↔ x.erase = y.erase := by
  refine ⟨fun h => floatText_inj h, fun h => ?_⟩
  have hsame : floatText x = floatText y := by rw [← floatText_erase, h, floatText_erase]
  exact hsame

theorem array_iff {xs ys : List Json} :
    SameText (.array xs) (.array ys) ↔ List.Forall₂ SameText xs ys := by
  refine ⟨fun h => ?_, array⟩
  have htexts := (array_append_inj (ends_items xs) h.chars_eq).1
  rwa [← List.forall₂_eq_eq_eq, List.forall₂_map_left_iff, List.forall₂_map_right_iff] at htexts

theorem array_map_iff {f : α → Json} {g : β → Json} {xs : List α} {ys : List β} :
    SameText (.array (xs.map f)) (.array (ys.map g))
      ↔ List.Forall₂ (fun x y => SameText (f x) (g y)) xs ys := by
  rw [array_iff, List.forall₂_map_left_iff, List.forall₂_map_right_iff]

theorem forall₂_of_array {f : α → Json} {r : α → α → Prop} {xs ys : List α}
    (hr : ∀ x ∈ xs, ∀ y ∈ ys, SameText (f x) (f y) → r x y)
    (h : SameText (.array (xs.map f)) (.array (ys.map f))) : List.Forall₂ r xs ys :=
  Value.forall₂_imp_of_mem hr (array_map_iff.mp h)

theorem members {xs ys : List (String × Json)} (h : SameText (.object xs) (.object ys)) :
    List.Forall₂ (fun x y => x.1 = y.1 ∧ SameText x.2 y.2) (sortByKey xs) (sortByKey ys) := by
  have htexts := (object_append_inj (ends_fields xs) h.chars_eq).1
  rw [← List.forall₂_eq_eq_eq, List.forall₂_map_left_iff, List.forall₂_map_right_iff] at htexts
  exact htexts.imp fun _ _ heq => Prod.mk.inj heq

theorem lookup {xs ys : List (String × Json)} (h : SameText (.object xs) (.object ys))
    (hxs : (xs.map (·.1)).Nodup) (hys : (ys.map (·.1)).Nodup) :
    ∀ member ∈ xs, ∃ y, ys.lookup member.1 = some y ∧ SameText member.2 y :=
  ((forall₂_sortByKey hxs hys).mp h.members).2

theorem rearranged_of_object {f : α → Json} {g : β → Json} {r : α → β → Prop}
    {xs : List (String × α)} {ys : List (String × β)} (hkeys : (xs.map (·.1)).Nodup)
    (hr : ∀ x ∈ xs, ∀ y ∈ ys, SameText (f x.2) (g y.2) → r x.2 y.2)
    (h : SameText (.object (xs.map fun x => (x.1, f x.2)))
      (.object (ys.map fun y => (y.1, g y.2)))) : Rearranged r xs ys := by
  have hmembers := h.members
  rw [sortByKey_map, sortByKey_map, List.forall₂_map_left_iff, List.forall₂_map_right_iff]
    at hmembers
  have hsorted : List.Forall₂ (fun (x : String × α) (y : String × β) => x.1 = y.1 ∧ r x.2 y.2)
      (sortByKey xs) (sortByKey ys) :=
    Value.forall₂_imp_of_mem (fun x hx y hy hxy => ⟨hxy.1, hr x ((perm_sortByKey xs).mem_iff.mp hx)
      y ((perm_sortByKey ys).mem_iff.mp hy) hxy.2⟩) hmembers
  -- the second list is not sorted, so its order is given to the first one
  have hcomp : Relation.Comp _ List.Perm (sortByKey xs) ys := ⟨_, hsorted, perm_sortByKey ys⟩
  rw [List.forall₂_comp_perm_eq_perm_comp_forall₂] at hcomp
  obtain ⟨zs, hperm, hmeet⟩ := hcomp
  exact ⟨hkeys, zs, (perm_sortByKey xs).symm.trans hperm, hmeet⟩

end SameText

end ForwardChaining.Json
