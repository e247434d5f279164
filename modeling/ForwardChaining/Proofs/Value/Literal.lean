import ForwardChaining.Proofs.Binary64.Text
import ForwardChaining.Proofs.Text.Quoted
import ForwardChaining.Proofs.Text.Separated
import ForwardChaining.Proofs.Value.Sameness
import ForwardChaining.Value.Literal

/-!
This module contains what the literal of a value tells: everything but which NaN a NaN is, and how a
callable is called. A literal also tells where it ends, so those of nested values do not run into each
other.
-/

namespace ForwardChaining

open Text

/-- The number, but not which NaN it is. -/
def Binary64.erase : Binary64 → Binary64
  | .nan _ => .nan (.written 0)
  | x => x

theorem Binary64.erase_erase (x : Binary64) : x.erase.erase = x.erase := by
  cases x <;> rfl

namespace Value

mutual

/-- The value without what its literal does not tell. -/
def erase : Value → Value
  | .float x => .float x.erase
  | .list items => .list (eraseItems items)
  | .tuple items => .tuple (eraseItems items)
  | .set items => .set (eraseItems items)
  | .record fields => .record (eraseFields fields)
  | .callable ident _ => .callable ident ""
  | x => x
termination_by structural x => x

/-- The items without what their literals do not tell. -/
def eraseItems : List Value → List Value
  | [] => []
  | x :: xs => erase x :: eraseItems xs
termination_by structural x => x

/-- The fields without what the literals of their values do not tell. -/
def eraseFields : List (String × Value) → List (String × Value)
  | [] => []
  | (k, x) :: xs => (k, erase x) :: eraseFields xs
termination_by structural x => x

end

/-- The characters of the literal. -/
def chars (x : Value) : List Char :=
  x.literal.toList

/-- The characters of a field of a record. -/
def fieldChars (field : String × Value) : List Char :=
  quotedChars field.1.toList ++ ':' :: ' ' :: field.2.chars

theorem literals_eq_map (items : List Value) : literals items = items.map literal := by
  induction items with
  | nil => rfl
  | cons x xs ih => rw [literals, ih, List.map_cons]

theorem fieldLiterals_eq_map (fields : List (String × Value)) :
    fieldLiterals fields = fields.map fun field => quoted field.1 ++ ": " ++ field.2.literal := by
  induction fields with
  | nil => rfl
  | cons field fields ih => rw [fieldLiterals, ih, List.map_cons]

theorem eraseItems_eq_map (items : List Value) : eraseItems items = items.map erase := by
  induction items with
  | nil => rfl
  | cons x xs ih => exact congrArg (x.erase :: ·) ih

theorem eraseFields_eq_map (fields : List (String × Value)) :
    eraseFields fields = fields.map fun field => (field.1, field.2.erase) := by
  induction fields with
  | nil => rfl
  | cons field fields ih => exact congrArg ((field.1, field.2.erase) :: ·) ih

theorem erase_list (items : List Value) : erase (.list items) = .list (items.map erase) :=
  congrArg list (eraseItems_eq_map items)

theorem erase_tuple (items : List Value) : erase (.tuple items) = .tuple (items.map erase) :=
  congrArg tuple (eraseItems_eq_map items)

theorem erase_set (items : List Value) : erase (.set items) = .set (items.map erase) :=
  congrArg set (eraseItems_eq_map items)

theorem erase_record (fields : List (String × Value)) :
    erase (.record fields) = .record (fields.map fun field => (field.1, field.2.erase)) :=
  congrArg record (eraseFields_eq_map fields)

/-! ### The characters of containers -/

theorem chars_list (items : List Value) : chars (.list items) = bracketed chars '[' ']' items := by
  change ("[" ++ joinWith ", " (literals items) ++ "]").toList = _
  rw [literals_eq_map, toList_bracketed rfl rfl]
  rfl

theorem chars_tuple (items : List Value) : chars (.tuple items) = tupled chars items := by
  change (tupleText (literals items)).toList = _
  rw [literals_eq_map, toList_tupleText]
  rfl

theorem chars_set_cons (x : Value) (xs : List Value) :
    chars (.set (x :: xs)) = bracketed chars '\x7b' '\x7d' (x :: xs) := by
  change ("\x7b" ++ joinWith ", " (literals (x :: xs)) ++ "\x7d").toList = _
  rw [literals_eq_map, toList_bracketed rfl rfl]
  rfl

theorem chars_record (fields : List (String × Value)) :
    chars (.record fields) = bracketed fieldChars '\x7b' '\x7d' fields := by
  have hfield (field : String × Value) :
      (quoted field.1 ++ ": " ++ field.2.literal).toList = fieldChars field := by
    simp [fieldChars, quoted, chars]
  change ("\x7b" ++ joinWith ", " (fieldLiterals fields) ++ "\x7d").toList = _
  rw [fieldLiterals_eq_map, toList_bracketed rfl rfl, funext hfield]
  rfl

theorem chars_callable (ident : Nat) (name : String) :
    chars (.callable ident name) = '<' :: ("function ".toList ++ ((ofNat ident).toList ++ ['>'])) := by
  change ("<function " ++ ofNat ident ++ ">").toList = _
  rw [String.toList_append, String.toList_append, List.append_assoc]
  rfl

theorem chars_text (s : String) : chars (.text s) = quotedChars s.toList :=
  String.toList_ofList

/-! ### What a literal begins with -/

/-- The kinds of literals that differ in their first character. -/
inductive Shape where
  | null
  | yes
  | no
  | number
  | text
  | list
  | tuple
  | braces
  | emptySet
  | callable
  /-- No literal begins so. -/
  | other
deriving DecidableEq

/-- The kind of a literal that begins with a character. -/
def Shape.ofHead (c : Char) : Shape :=
  if c = 'N' then .null
  else if c = 'T' then .yes
  else if c = 'F' then .no
  else if c = '\'' ∨ c = '"' then .text
  else if c = '[' then .list
  else if c = '(' then .tuple
  else if c = '\x7b' then .braces
  else if c = 's' then .emptySet
  else if c = '<' then .callable
  else if c.isDigit ∨ c ∈ Binary64.marks then .number
  else .other

/-- The kind of the literal. -/
def shape : Value → Shape
  | .null => .null
  | .bool true => .yes
  | .bool false => .no
  | .int _ => .number
  | .float _ => .number
  | .text _ => .text
  | .list _ => .list
  | .tuple _ => .tuple
  | .set [] => .emptySet
  | .set (_ :: _) => .braces
  | .record _ => .braces
  | .callable .. => .callable

theorem Shape.ofHead_number {c : Char} (h : c.isDigit = true ∨ c ∈ Binary64.marks) :
    ofHead c = .number := by
  have hne : ∀ other ∈ ['N', 'T', 'F', '\'', '"', '[', '(', '\x7b', 's', '<'], c ≠ other := by
    rintro other hother rfl
    have hdigit : ∀ c ∈ ['N', 'T', 'F', '\'', '"', '[', '(', '\x7b', 's', '<'],
        c.isDigit = false ∧ c ∉ Binary64.marks :=
      List.all_iff_forall_prop.mp (by decide)
    rcases h with h | h
    . rw [(hdigit _ hother).1] at h
      cases h
    . exact (hdigit _ hother).2 h
  simp only [List.forall_mem_cons] at hne
  obtain ⟨h1, h2, h3, h4, h5, h6, h7, h8, h9, h10, -⟩ := hne
  simp [ofHead, h1, h2, h3, h4, h5, h6, h7, h8, h9, h10, h]

theorem exists_chars_number {cs : List Char} (hne : cs ≠ [])
    (h : ∀ c ∈ cs, c.isDigit = true ∨ c ∈ Binary64.marks) :
    ∃ c rest, cs = c :: rest ∧ Shape.ofHead c = .number := by
  cases cs with
  | nil => exact absurd rfl hne
  | cons c rest => exact ⟨c, rest, rfl, Shape.ofHead_number (h c (by simp))⟩

theorem numeral_of_mem_int {n : Int} {c : Char} (h : c ∈ chars (.int n)) :
    c.isDigit = true ∨ c ∈ Binary64.marks := by
  rcases mem_ofInt h with hc | rfl
  . exact .inl hc
  . exact .inr (by decide)

theorem numeral_of_mem_float {z : Binary64} {c : Char} (h : c ∈ chars (.float z)) :
    c.isDigit = true ∨ c ∈ Binary64.marks :=
  Binary64.mem_text h

theorem exists_chars (x : Value) : ∃ c rest, x.chars = c :: rest ∧ Shape.ofHead c = x.shape := by
  match x with
  | .null => exact ⟨_, _, rfl, rfl⟩
  | .bool true => exact ⟨_, _, rfl, rfl⟩
  | .bool false => exact ⟨_, _, rfl, rfl⟩
  | .int n => exact exists_chars_number (ofInt_ne_nil n) fun c hc => numeral_of_mem_int hc
  | .float y => exact exists_chars_number y.text_ne_nil fun c hc => numeral_of_mem_float hc
  | .text s =>
    rw [chars_text]
    refine ⟨_, _, rfl, ?_⟩
    rcases isQuote_quoteFor s.toList with heq | heq <;> rw [heq] <;> rfl
  | .list items =>
    rw [chars_list]
    cases items <;> exact ⟨_, _, rfl, rfl⟩
  | .tuple items =>
    rw [chars_tuple]
    cases items <;> exact ⟨_, _, rfl, rfl⟩
  | .set [] => exact ⟨_, _, rfl, rfl⟩
  | .set (y :: ys) =>
    rw [chars_set_cons]
    exact ⟨_, _, rfl, rfl⟩
  | .record fields =>
    rw [chars_record]
    cases fields <;> exact ⟨_, _, rfl, rfl⟩
  | .callable ident name =>
    rw [chars_callable]
    exact ⟨_, _, rfl, rfl⟩

/-- The values whose literals are of a kind. -/
def Shape.Of (x : Value) : Shape → Prop
  | .null => x = .null
  | .yes => x = .bool true
  | .no => x = .bool false
  | .number => (∃ n, x = .int n) ∨ ∃ z, x = .float z
  | .text => ∃ s, x = .text s
  | .list => ∃ items, x = .list items
  | .tuple => ∃ items, x = .tuple items
  | .braces => (∃ y ys, x = .set (y :: ys)) ∨ ∃ fields, x = .record fields
  | .emptySet => x = .set []
  | .callable => ∃ ident name, x = .callable ident name
  | .other => False

theorem of_shape (x : Value) : Shape.Of x x.shape := by
  match x with
  | .null | .bool true | .bool false | .set [] => rfl
  | .int n => exact .inl ⟨n, rfl⟩
  | .float z => exact .inr ⟨z, rfl⟩
  | .text s => exact ⟨s, rfl⟩
  | .list items => exact ⟨items, rfl⟩
  | .tuple items => exact ⟨items, rfl⟩
  | .set (y :: ys) => exact .inl ⟨y, ys, rfl⟩
  | .record fields => exact .inr ⟨fields, rfl⟩
  | .callable ident name => exact ⟨ident, name, rfl⟩

theorem of_shape_of_append {x y : Value} {rest rest' : List Char}
    (h : x.chars ++ rest = y.chars ++ rest') : Shape.Of y x.shape := by
  obtain ⟨c, cs, hx, hc⟩ := exists_chars x
  obtain ⟨d, ds, hy, hd⟩ := exists_chars y
  rw [hx, hy] at h
  rw [← hc, (List.cons.inj h).1, hd]
  exact of_shape y

/-! ### Where a literal ends -/

/-- The literal tells where it ends and, up to what it does not tell, the value. -/
def Decodes (x : Value) : Prop :=
  Tells chars erase x

theorem chars_append_inj {x y : Value} (hx : ∀ c ∈ x.chars, isStop c = false)
    (hy : ∀ c ∈ y.chars, isStop c = false) {rest rest' : List Char} (hrest : Stops rest)
    (hrest' : Stops rest') (h : x.chars ++ rest = y.chars ++ rest') :
    x.literal = y.literal ∧ rest = rest' := by
  obtain ⟨hchars, heq⟩ := plain_append_inj hx hy hrest hrest' h
  exact ⟨String.toList_inj.mp hchars, heq⟩

theorem not_stop_of_numeral {c : Char} (h : c.isDigit = true ∨ c ∈ Binary64.marks) :
    isStop c = false := by
  rw [Bool.eq_false_iff]
  intro hstop
  have hnumeral : ∀ c ∈ [',', ')', ']', '\x7d'], c.isDigit = false ∧ c ∉ Binary64.marks :=
    List.all_iff_forall_prop.mp (by decide)
  have hplain := hnumeral c (mem_of_isStop hstop)
  rcases h with h | h
  . rw [hplain.1] at h
    cases h
  . exact hplain.2 h

theorem decodes_int (n : Int) : Decodes (.int n) := by
  intro y rest rest' hrest hrest' h
  have hn : ∀ c ∈ chars (.int n), isStop c = false :=
    fun c hc => not_stop_of_numeral (numeral_of_mem_int hc)
  rcases of_shape_of_append h with ⟨m, rfl⟩ | ⟨z, rfl⟩
  . obtain ⟨hliteral, heq⟩ := chars_append_inj hn
      (fun c hc => not_stop_of_numeral (numeral_of_mem_int hc)) hrest hrest' h
    have hnm := ofInt_inj hliteral
    subst hnm
    exact ⟨rfl, heq⟩
  . obtain ⟨hliteral, -⟩ := chars_append_inj hn
      (fun c hc => not_stop_of_numeral (numeral_of_mem_float hc)) hrest hrest' h
    obtain ⟨c, hc, hdigit, hminus⟩ := Binary64.exists_mark_text z
    change ofInt n = z.text at hliteral
    rw [← hliteral] at hc
    rcases mem_ofInt hc with hyes | hyes
    . rw [hdigit] at hyes
      cases hyes
    . exact absurd hyes hminus

theorem decodes_float (z : Binary64) : Decodes (.float z) := by
  intro y rest rest' hrest hrest' h
  rcases of_shape_of_append h with ⟨m, rfl⟩ | ⟨z', rfl⟩
  . obtain ⟨herase, heq⟩ := decodes_int m (.float z) rest' rest hrest' hrest h.symm
    exact ⟨herase.symm, heq.symm⟩
  . obtain ⟨hliteral, heq⟩ := chars_append_inj
      (fun c hc => not_stop_of_numeral (numeral_of_mem_float hc))
      (fun c hc => not_stop_of_numeral (numeral_of_mem_float hc)) hrest hrest' h
    rcases Binary64.text_inj hliteral with rfl | ⟨⟨a, rfl⟩, b, rfl⟩
    . exact ⟨rfl, heq⟩
    . exact ⟨rfl, heq⟩

theorem decodes_callable (ident : Nat) (name : String) : Decodes (.callable ident name) := by
  intro y rest rest' hrest hrest' h
  have hplain : ∀ ident name, ∀ c ∈ chars (.callable ident name), isStop c = false := by
    intro ident name c hc
    rw [chars_callable, ← List.cons_append, List.mem_append, List.mem_append] at hc
    rcases hc with hc | hc | hc
    . have hopening : ∀ c ∈ '<' :: "function ".toList, isStop c = false :=
        List.all_iff_forall_prop.mp (by decide)
      exact hopening c hc
    . rw [toList_ofNat] at hc
      exact not_stop_of_numeral (.inl (allDigits_toDigits ident c hc))
    . rw [List.mem_singleton.mp hc]
      rfl
  obtain ⟨ident', name', rfl⟩ := of_shape_of_append h
  obtain ⟨hliteral, heq⟩ := chars_append_inj (hplain ident name) (hplain ident' name') hrest
    hrest' h
  have hchars : chars (.callable ident name) = chars (.callable ident' name') :=
    congrArg String.toList hliteral
  rw [chars_callable, chars_callable, List.cons.injEq] at hchars
  have hident := List.append_cancel_right (List.append_cancel_left hchars.2)
  refine ⟨?_, heq⟩
  exact congrArg (callable · "") (ofNat_inj (String.toList_inj.mp hident))

theorem decodes_text (s : String) : Decodes (.text s) := by
  intro y rest rest' hrest hrest' h
  obtain ⟨t, rfl⟩ := of_shape_of_append h
  rw [chars_text, chars_text] at h
  obtain ⟨hst, heq⟩ := quotedChars_append_inj h
  rw [String.toList_inj.mp hst]
  exact ⟨rfl, heq⟩

/-! ### Containers -/

theorem not_empty_brackets {x : Value} {closing : Char} (h : isStop closing = true)
    {rest rest' : List Char} : x.chars ++ rest ≠ closing :: rest' := by
  intro heq
  obtain ⟨c, cs, hchars, hshape⟩ := exists_chars x
  rw [hchars] at heq
  have hother : ∀ c ∈ [',', ')', ']', '\x7d'], Shape.ofHead c = .other :=
    List.all_iff_forall_prop.mp (by decide)
  have hof := of_shape x
  rw [← hshape, (List.cons.inj heq).1, hother closing (mem_of_isStop h)] at hof
  exact hof

theorem decodes_list {items : List Value} (hitems : ∀ x ∈ items, Decodes x) :
    Decodes (.list items) := by
  intro y rest rest' hrest hrest' h
  obtain ⟨items', rfl⟩ := of_shape_of_append h
  rw [chars_list, chars_list] at h
  obtain ⟨herase, heq⟩ := bracketed_append_inj rfl (by decide)
    (fun _ _ _ => not_empty_brackets rfl) hitems h
  exact ⟨by rw [erase_list, erase_list, herase], heq⟩

theorem decodes_tuple {items : List Value} (hitems : ∀ x ∈ items, Decodes x) :
    Decodes (.tuple items) := by
  intro y rest rest' hrest hrest' h
  obtain ⟨items', rfl⟩ := of_shape_of_append h
  rw [chars_tuple, chars_tuple] at h
  obtain ⟨herase, heq⟩ := tupled_append_inj (fun _ _ _ => not_empty_brackets rfl) hitems h
  exact ⟨by rw [erase_tuple, erase_tuple, herase], heq⟩

theorem not_empty_braces {field : String × Value} {rest rest' : List Char} :
    fieldChars field ++ rest ≠ '\x7d' :: rest' := by
  rw [fieldChars, ← chars_text, List.append_assoc]
  exact not_empty_brackets rfl

theorem set_ne_record {x : Value} {xs : List Value} {fields : List (String × Value)}
    {rest rest' : List Char} :
    chars (.set (x :: xs)) ++ rest ≠ chars (.record fields) ++ rest' := by
  intro h
  rw [chars_set_cons, chars_record] at h
  simp only [bracketed, List.cons_append, List.append_assoc, List.nil_append] at h
  cases fields with
  | nil => exact not_empty_brackets rfl (List.cons.inj h).2
  | cons field fields =>
    simp only [fieldChars, List.cons_append, List.append_assoc, List.cons.injEq, true_and] at h
    rw [← chars_text] at h
    obtain ⟨s, rfl⟩ := of_shape_of_append h.symm
    rw [chars_text, chars_text] at h
    obtain ⟨-, hmore⟩ := quotedChars_append_inj h
    have hstops : Stops (further chars xs ++ '\x7d' :: rest) := stops_further xs rfl rest
    exact absurd (hstops ':' (by rw [hmore]; rfl)) (by decide)

theorem decodes_set {items : List Value} (hitems : ∀ x ∈ items, Decodes x) :
    Decodes (.set items) := by
  intro y rest rest' hrest hrest' h
  cases items with
  | nil =>
    have hy : y = .set [] := of_shape_of_append h
    subst hy
    exact ⟨rfl, List.append_cancel_left h⟩
  | cons x xs =>
    rcases of_shape_of_append h with ⟨y, ys, rfl⟩ | ⟨fields, rfl⟩
    . rw [chars_set_cons, chars_set_cons] at h
      obtain ⟨herase, heq⟩ := bracketed_append_inj rfl (by decide)
        (fun _ _ _ => not_empty_brackets rfl) hitems h
      exact ⟨by rw [erase_set, erase_set, herase], heq⟩
    . exact absurd h set_ne_record

theorem tells_fieldChars {field : String × Value} (hfield : Decodes field.2) :
    Tells fieldChars (fun field => (field.1, field.2.erase)) field := by
  intro field' rest rest' hrest hrest' h
  unfold fieldChars at h
  rw [List.append_assoc, List.append_assoc] at h
  obtain ⟨hkey, hvalue⟩ := quotedChars_append_inj h
  simp only [List.cons_append, List.cons.injEq, true_and] at hvalue
  obtain ⟨herase, heq⟩ := hfield _ _ _ hrest hrest' hvalue
  exact ⟨Prod.ext (String.toList_inj.mp hkey) herase, heq⟩

theorem decodes_record {fields : List (String × Value)}
    (hfields : ∀ field ∈ fields, Decodes field.2) : Decodes (.record fields) := by
  intro y rest rest' hrest hrest' h
  rcases of_shape_of_append h with ⟨y, ys, rfl⟩ | ⟨fields', rfl⟩
  . exact absurd h.symm set_ne_record
  rw [chars_record, chars_record] at h
  obtain ⟨herase, heq⟩ := bracketed_append_inj rfl (by decide) (fun _ _ _ => not_empty_braces)
    (fun field hfield => tells_fieldChars (hfields field hfield)) h
  exact ⟨by rw [erase_record, erase_record, herase], heq⟩

theorem decodes_word {x : Value} (h : ∀ y, Shape.Of y x.shape → y = x) : Decodes x := by
  intro y rest rest' hrest hrest' heq
  have hy := h y (of_shape_of_append heq)
  subst hy
  exact ⟨rfl, List.append_cancel_left heq⟩

theorem decodes (x : Value) : Decodes x := by
  induction x using induction_on_parts with
  | step x ih =>
    match x with
    | .null | .bool true | .bool false => exact decodes_word fun y hy => hy
    | .int n => exact decodes_int n
    | .float z => exact decodes_float z
    | .text s => exact decodes_text s
    | .list items => exact decodes_list ih
    | .tuple items => exact decodes_tuple ih
    | .set items => exact decodes_set ih
    | .record fields =>
      exact decodes_record fun field hfield => ih field.2 (List.mem_map.mpr ⟨field, hfield, rfl⟩)
    | .callable ident name => exact decodes_callable ident name

theorem erase_eq_of_literal {x y : Value} (h : x.literal = y.literal) : x.erase = y.erase := by
  refine (decodes x y [] [] stops_nil stops_nil ?_).1
  rw [chars, chars, h]

end Value
end ForwardChaining
