import ForwardChaining.Proofs.Rule.Condition
import ForwardChaining.Proofs.Value.Alike

/-!
This module contains the proof that filters of one identity admit the same facts, so that patterns may
share a memory. The text of the tests determines them up to which NaN a NaN is, and it takes a fact
that holds the very NaN to tell these apart.
-/

namespace ForwardChaining

open Text Value

theorem name_inj {op op' : Operator} (h : op.name = op'.name) : op = op' := by
  cases op <;> cases op' <;> simp [Operator.name] at h ⊢

namespace FieldTest

/-- The test without what its text does not tell. -/
def erase (test : FieldTest) : FieldTest :=
  { test with value := test.value.erase }

/-- The characters of the text of the test. -/
def chars (test : FieldTest) : List Char :=
  test.literal.toList

theorem chars_append (test : FieldTest) (rest : List Char) :
    test.chars ++ rest = "FieldTest(".toList ++ ("field=".toList ++ (quotedChars test.field.toList
      ++ (", ".toList ++ ("op=".toList ++ (quotedChars test.op.name.toList
        ++ (", ".toList ++ ("value=".toList ++ (test.value.chars ++ (")".toList ++ rest))))))))) := by
  have hquoted (s : String) : (quoted s).toList = quotedChars s.toList := String.toList_ofList
  unfold chars literal Value.chars joinWith
  simp only [String.intercalate_cons_cons, String.intercalate_singleton, String.toList_append,
    hquoted, List.append_assoc]

theorem erase_inj {test test' : FieldTest} (h : test.erase = test'.erase) :
    test.field = test'.field ∧ test.op = test'.op ∧ test.value.erase = test'.value.erase :=
  FieldTest.mk.inj h

theorem tells_chars (test : FieldTest) : Tells chars erase test := by
  intro test' rest rest' hrest hrest' h
  rw [chars_append, chars_append] at h
  obtain ⟨hfield, h⟩ := quotedChars_append_inj
    (List.append_cancel_left (List.append_cancel_left h))
  obtain ⟨hop, h⟩ := quotedChars_append_inj
    (List.append_cancel_left (List.append_cancel_left h))
  have hclosing (rest : List Char) : Stops (")".toList ++ rest) := stops_cons rfl rest
  obtain ⟨hvalue, h⟩ := decodes test.value test'.value _ _ (hclosing rest) (hclosing rest')
    (List.append_cancel_left (List.append_cancel_left h))
  refine ⟨?_, List.append_cancel_left h⟩
  rw [erase, erase, String.toList_inj.mp hfield, name_inj (String.toList_inj.mp hop), hvalue]

end FieldTest

/-- The fact holds no NaN that is written in the tests. -/
def Fact.ApartFrom (fact : Fact) (tests : List FieldTest) : Prop :=
  ∀ test ∈ tests, ∀ field, (fact.get field).Apart test.value

namespace FactFilter

theorem passesAll_congr {tests tests' : List FieldTest}
    (h : tests.map (·.erase) = tests'.map (·.erase)) {fact : Fact}
    (hapart : fact.ApartFrom tests) (hapart' : fact.ApartFrom tests') :
    passesAll fact tests = passesAll fact tests' := by
  induction tests generalizing tests' with
  | nil =>
    cases tests' with
    | nil => rfl
    | cons test' tests' => simp at h
  | cons test tests ih =>
    cases tests' with
    | nil => simp at h
    | cons test' tests' =>
      rw [List.map_cons, List.map_cons, List.cons.injEq] at h
      obtain ⟨hfield, hop, hvalue⟩ := FieldTest.erase_inj h.1
      have hpasses : test.passes fact = test'.passes fact := by
        unfold FieldTest.passes
        rw [← hop, ← hfield]
        exact Operator.apply_congr hvalue (hapart test (by simp) test.field)
          (hapart' test' (by simp) test.field) test.op
      rw [passesAll, passesAll, hpasses, ih h.2 (fun t ht => hapart t (by simp [ht]))
        fun t ht => hapart' t (by simp [ht])]

theorem erase_tests_of_identity {filter other : FactFilter} (h : filter.identity = other.identity) :
    filter.tests.map (·.erase) = other.tests.map (·.erase) := by
  have htests := congrArg String.toList (Identity.mk.inj h).2.1
  rw [toList_tupleText, toList_tupleText] at htests
  have hrest : tupled FieldTest.chars filter.tests ++ [] = tupled FieldTest.chars other.tests ++ [] :=
    congrArg (· ++ []) htests
  have hopen : ∀ (test : FieldTest) (rest rest' : List Char), test.chars ++ rest ≠ ')' :: rest' := by
    intro test rest rest' heq
    rw [FieldTest.chars_append] at heq
    simp at heq
  exact (tupled_append_inj hopen (fun test _ => test.tells_chars) hrest).1

theorem accepts_of_identity {filter other : FactFilter} (h : filter.identity = other.identity)
    (hpredicate : filter.predicate = other.predicate) {fact : Fact}
    (hapart : fact.ApartFrom filter.tests) (hapart' : fact.ApartFrom other.tests) :
    filter.accepts fact = other.accepts fact := by
  have hreaches : filter.reaches fact = other.reaches fact := by
    unfold reaches
    rw [(Identity.mk.inj h).1, passesAll_congr (erase_tests_of_identity h) hapart hapart']
  unfold accepts
  rw [hreaches, hpredicate]

theorem admits_of_identity {filter other : FactFilter} (h : filter.identity = other.identity)
    (hpredicate : filter.predicate = other.predicate) {fact : Fact}
    (hapart : fact.ApartFrom filter.tests) (hapart' : fact.ApartFrom other.tests) :
    filter.admits fact = other.admits fact := by
  rw [admits, admits, accepts_of_identity h hpredicate hapart hapart']

end FactFilter
end ForwardChaining
