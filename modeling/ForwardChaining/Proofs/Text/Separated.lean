import ForwardChaining.Proofs.Text.Digits
import ForwardChaining.Text.Basic
import ForwardChaining.Value.Literal

/-!
This module contains the text of several items with commas between them. If the text of an item tells the
item and where it ends, the text of the items between brackets tells all of them.
-/

namespace ForwardChaining.Text

variable {α β : Type} (text : α → List Char) (view : α → β)

/-- Items behind the first one, each after a comma. -/
def further (items : List α) : List Char :=
  items.flatMap fun x => ',' :: ' ' :: text x

theorem further_cons (x : α) (xs : List α) :
    further text (x :: xs) = ',' :: ' ' :: (text x ++ further text xs) :=
  List.flatMap_cons

/-- Items between brackets. -/
def bracketed (opening closing : Char) : List α → List Char
  | [] => [opening, closing]
  | x :: xs => opening :: (text x ++ further text xs ++ [closing])

/-- What stands behind the first item of a tuple; a single one keeps a comma behind it. -/
def furtherInTuple : List α → List Char
  | [] => [',', ')']
  | xs => further text xs ++ [')']

/-- Items between the brackets of a tuple. -/
def tupled : List α → List Char
  | [] => ['(', ')']
  | x :: xs => '(' :: (text x ++ furtherInTuple text xs)

theorem toList_joinWith_cons (part : String) (parts : List String) :
    (joinWith ", " (part :: parts)).toList
      = part.toList ++ parts.flatMap fun p => ',' :: ' ' :: p.toList := by
  induction parts generalizing part with
  | nil => simp [joinWith]
  | cons next parts ih =>
    change (String.intercalate ", " (part :: next :: parts)).toList = _
    rw [String.intercalate_cons_cons, String.toList_append, String.toList_append]
    change _ ++ _ ++ (joinWith ", " (next :: parts)).toList = _
    rw [ih next, List.flatMap_cons, List.append_assoc]
    rfl

theorem toList_joinWith_map (write : α → String) (x : α) (xs : List α) :
    (joinWith ", " ((x :: xs).map write)).toList
      = (write x).toList ++ further (fun x => (write x).toList) xs := by
  rw [List.map_cons, toList_joinWith_cons, List.flatMap_map]
  rfl

theorem toList_bracketed {opening closing : String} {c d : Char} (hopening : opening.toList = [c])
    (hclosing : closing.toList = [d]) (write : α → String) (xs : List α) :
    (opening ++ joinWith ", " (xs.map write) ++ closing).toList
      = bracketed (fun x => (write x).toList) c d xs := by
  rw [String.toList_append, String.toList_append, hopening, hclosing]
  cases xs with
  | nil => rfl
  | cons x xs =>
    rw [toList_joinWith_map]
    rfl

theorem toList_tupleText (write : α → String) (xs : List α) :
    (Value.tupleText (xs.map write)).toList = tupled (fun x => (write x).toList) xs := by
  match xs with
  | [] => simp [Value.tupleText, joinWith, tupled]
  | [x] =>
    change ("(" ++ write x ++ ",)").toList = _
    rw [String.toList_append, String.toList_append]
    rfl
  | x :: y :: ys =>
    change ("(" ++ joinWith ", " ((x :: y :: ys).map write) ++ ")").toList = _
    rw [String.toList_append, String.toList_append, toList_joinWith_map, List.append_assoc,
      List.append_assoc]
    rfl

/-! ### Where a text ends -/

/-- The characters that stand behind items in a container. -/
def isStop (c : Char) : Bool :=
  c == ',' || c == ')' || c == ']' || c == '\x7d'

theorem mem_of_isStop {c : Char} (h : isStop c = true) : c ∈ [',', ')', ']', '\x7d'] := by
  simpa [isStop, or_assoc] using h

/-- What stands behind an item. -/
def Stops (rest : List Char) : Prop :=
  ∀ c ∈ rest.head?, isStop c = true

theorem stops_nil : Stops [] := nofun

theorem stops_cons {c : Char} (h : isStop c = true) (rest : List Char) : Stops (c :: rest) := by
  rintro _ ⟨⟩
  exact h

theorem plain_append_inj {cs cs' rest rest' : List Char} (hcs : ∀ c ∈ cs, isStop c = false)
    (hcs' : ∀ c ∈ cs', isStop c = false) (hrest : Stops rest) (hrest' : Stops rest')
    (h : cs ++ rest = cs' ++ rest') : cs = cs' ∧ rest = rest' :=
  run_append_inj (p := fun c => !isStop c) (fun c hc => by simp [hcs c hc])
    (fun c hc => by simp [hcs' c hc]) (fun c hc => by simp [hrest c hc])
    (fun c hc => by simp [hrest' c hc]) h

/-- The text tells where it ends and, as far as can be seen, the item. -/
def Tells (x : α) : Prop :=
  ∀ (y : α) (rest rest' : List Char), Stops rest → Stops rest' →
    text x ++ rest = text y ++ rest' → view x = view y ∧ rest = rest'

variable {text view}

theorem stops_further (xs : List α) {closing : Char} (h : isStop closing = true)
    (rest : List Char) : Stops (further text xs ++ closing :: rest) := by
  cases xs with
  | nil => exact stops_cons h rest
  | cons x xs => exact stops_cons rfl _

theorem stops_furtherInTuple (xs : List α) (rest : List Char) :
    Stops (furtherInTuple text xs ++ rest) := by
  cases xs with
  | nil => exact stops_cons rfl _
  | cons x xs => exact stops_cons rfl _

section Brackets

variable {closing : Char} (hstop : isStop closing = true) (hcomma : closing ≠ ',')

include hstop hcomma

theorem further_append_inj {xs ys : List α} (hxs : ∀ x ∈ xs, Tells text view x)
    {rest rest' : List Char}
    (h : further text xs ++ closing :: rest = further text ys ++ closing :: rest') :
    xs.map view = ys.map view ∧ rest = rest' := by
  induction xs generalizing ys with
  | nil =>
    cases ys with
    | nil => exact ⟨rfl, (List.cons.inj h).2⟩
    | cons y ys => exact absurd (List.cons.inj h).1 hcomma
  | cons x xs ih =>
    cases ys with
    | nil => exact absurd (List.cons.inj h).1.symm hcomma
    | cons y ys =>
      simp only [further_cons, List.cons_append, List.cons.injEq, true_and, List.append_assoc] at h
      obtain ⟨hview, hmore⟩ := hxs x (by simp) y _ _ (stops_further xs hstop rest)
        (stops_further ys hstop rest') h
      obtain ⟨hviews, heq⟩ := ih (fun z hz => hxs z (by simp [hz])) hmore
      exact ⟨by rw [List.map_cons, List.map_cons, hview, hviews], heq⟩

variable (hopen : ∀ (x : α) (rest rest' : List Char), text x ++ rest ≠ closing :: rest')

include hopen

theorem bracketed_append_inj {opening : Char} {xs ys : List α} (hxs : ∀ x ∈ xs, Tells text view x)
    {rest rest' : List Char}
    (h : bracketed text opening closing xs ++ rest = bracketed text opening closing ys ++ rest') :
    xs.map view = ys.map view ∧ rest = rest' := by
  cases xs with
  | nil =>
    cases ys with
    | nil => exact ⟨rfl, (List.cons.inj (List.cons.inj h).2).2⟩
    | cons y ys =>
      simp only [bracketed, List.cons_append, List.cons.injEq, true_and, List.append_assoc] at h
      exact absurd h.symm (hopen y _ _)
  | cons x xs =>
    cases ys with
    | nil =>
      simp only [bracketed, List.cons_append, List.cons.injEq, true_and, List.append_assoc] at h
      exact absurd h (hopen x _ _)
    | cons y ys =>
      simp only [bracketed, List.cons_append, List.cons.injEq, true_and, List.append_assoc,
        List.nil_append] at h
      obtain ⟨hview, hmore⟩ := hxs x (by simp) y _ _ (stops_further xs hstop rest)
        (stops_further ys hstop rest') h
      obtain ⟨hviews, heq⟩ := further_append_inj hstop hcomma
        (fun z hz => hxs z (by simp [hz])) hmore
      exact ⟨by rw [List.map_cons, List.map_cons, hview, hviews], heq⟩

end Brackets

theorem furtherInTuple_append_inj {xs ys : List α} (hxs : ∀ x ∈ xs, Tells text view x)
    {rest rest' : List Char}
    (h : furtherInTuple text xs ++ rest = furtherInTuple text ys ++ rest') :
    xs.map view = ys.map view ∧ rest = rest' := by
  -- Only behind a single item does the closing bracket follow the comma.
  have hsingle : ∀ {y : α} {ys : List α} {rest rest' : List Char},
      ',' :: ')' :: rest ≠ further text (y :: ys) ++ [')'] ++ rest' := by
    intro y ys rest rest' heq
    simp [further_cons] at heq
  cases xs with
  | nil =>
    cases ys with
    | nil => exact ⟨rfl, List.append_cancel_left h⟩
    | cons y ys => exact absurd h hsingle
  | cons x xs =>
    cases ys with
    | nil => exact absurd h.symm hsingle
    | cons y ys =>
      simp only [furtherInTuple, List.append_assoc, List.cons_append, List.nil_append] at h
      exact further_append_inj rfl (by decide) hxs h

theorem tupled_append_inj (hopen : ∀ (x : α) (rest rest' : List Char), text x ++ rest ≠ ')' :: rest')
    {xs ys : List α} (hxs : ∀ x ∈ xs, Tells text view x) {rest rest' : List Char}
    (h : tupled text xs ++ rest = tupled text ys ++ rest') :
    xs.map view = ys.map view ∧ rest = rest' := by
  cases xs with
  | nil =>
    cases ys with
    | nil => exact ⟨rfl, List.append_cancel_left h⟩
    | cons y ys =>
      simp only [tupled, List.cons_append, List.cons.injEq, true_and, List.append_assoc] at h
      exact absurd h.symm (hopen y _ _)
  | cons x xs =>
    cases ys with
    | nil =>
      simp only [tupled, List.cons_append, List.cons.injEq, true_and, List.append_assoc] at h
      exact absurd h (hopen x _ _)
    | cons y ys =>
      simp only [tupled, List.cons_append, List.cons.injEq, true_and, List.append_assoc] at h
      obtain ⟨hview, hmore⟩ := hxs x (by simp) y _ _ (stops_furtherInTuple xs rest)
        (stops_furtherInTuple ys rest') h
      obtain ⟨hviews, heq⟩ := furtherInTuple_append_inj (fun z hz => hxs z (by simp [hz])) hmore
      exact ⟨by rw [List.map_cons, List.map_cons, hview, hviews], heq⟩

end ForwardChaining.Text
