import ForwardChaining.Proofs.Operator
import ForwardChaining.Proofs.Value.Ordering

/-!
This module contains the laws of the ordering operators. They always have an answer; those that ask for
greater values are the others turned around, and greater or equal is greater, or equal where the values are
ordered at all.
-/

namespace ForwardChaining

namespace Operator

open Value (Related)

theorem ordered_iff {r : Relation} {x y : Value} : ordered r x y = true ↔ Related r x y := by
  rw [← Value.relate_eq_true]
  unfold ordered
  split
  . refine iff_of_false Bool.noConfusion fun h => ?_
    exact (Value.relate_eq_true.mp h).isOrdered
  . cases h : x.relate r y <;> simp [Except.toOption]

theorem ordered_converse (r : Relation) {x y : Value} (hx : x.Proper) (hy : y.Proper) :
    ordered r.converse y x = ordered r x y := by
  rw [Bool.eq_iff_iff, ordered_iff, ordered_iff]
  refine ⟨fun h => ?_, fun h => h.converse hx hy⟩
  rw [← r.converse_converse]
  exact h.converse hy hx

theorem ordered_greaterEq_iff {x y : Value} (hx : x.Proper) (hy : y.Proper) (hnull : x ≠ .null)
    (hrecords : ¬ (x.IsRecord ∧ y.IsRecord)) (hcallable : ¬ x.IsCallable) :
    ordered .greaterEq x y = true ↔ ordered .greater x y = true ∨ x.eq y = true := by
  rw [ordered_iff, ordered_iff, Value.related_greaterEq_iff hx hy, Value.eq_iff]
  refine or_congr_right (and_congr_right fun hsame => Value.isOrdered_iff hnull ?_ hcallable)
  rintro ⟨fields, rfl⟩
  cases y with
  | record fields' => exact hrecords ⟨⟨fields, rfl⟩, fields', rfl⟩
  | _ => cases hsame

/--
The ordering operators on values that can exist. Less is irreflexive and transitive. Greater is less turned
around, and greater or equal is less or equal turned around. Greater or equal means greater, or equal,
except for a null and between two records, which are equal and not ordered.
-/
theorem ordering_coherent {x y z : Value} (hx : x.Proper) (hy : y.Proper) (hz : z.Proper) :
    compareBy "lt" x x = .ok false
    ∧ (compareBy "lt" x y = .ok true → compareBy "lt" y z = .ok true → compareBy "lt" x z = .ok true)
    ∧ (∃ answer, compareBy "gt" x y = .ok answer ∧ compareBy "lt" y x = .ok answer)
    ∧ (∃ answer, compareBy "gte" x y = .ok answer ∧ compareBy "lte" y x = .ok answer)
    ∧ (x ≠ .null → ¬ (x.IsRecord ∧ y.IsRecord) → ¬ x.IsCallable →
      (compareBy "gte" x y = .ok true
        ↔ compareBy "gt" x y = .ok true ∨ compareBy "eq" x y = .ok true)) := by
  have hlt : ∀ a b, compareBy "lt" a b = .ok (ordered .less a b) := compareBy_name .lt
  have hgt : ∀ a b, compareBy "gt" a b = .ok (ordered .greater a b) := compareBy_name .gt
  have hlte : ∀ a b, compareBy "lte" a b = .ok (ordered .lessEq a b) := compareBy_name .lte
  have hgte : ∀ a b, compareBy "gte" a b = .ok (ordered .greaterEq a b) := compareBy_name .gte
  have heq : ∀ a b, compareBy "eq" a b = .ok (Value.eq a b) := compareBy_name .eq
  simp only [hlt, hgt, hlte, hgte, heq, Except.ok.injEq, exists_eq_left']
  refine ⟨?_, ?_, ordered_converse .greater hx hy, ordered_converse .greaterEq hx hy,
    ordered_greaterEq_iff hx hy⟩
  . rw [← Bool.not_eq_true, ordered_iff]
    exact Related.irrefl hx
  . simp only [ordered_iff]
    exact Related.trans hx hy hz

/-- A number and a set behind it. -/
def numbered (number : Value) (items : List Value) : Value :=
  .tuple [number, .set items]

theorem proper_numbered {number : Value} {items : List Value} (hnumber : number.Proper)
    (hitems : (Value.set items).Proper) : (numbered number items).Proper :=
  .tuple (by simp [hnumber, hitems])

/-- Zero in three types: the tuples differ first in the sets behind it. -/
theorem ordering_coherent_nested :
    compareBy "lt" (numbered (.int 0) []) (numbered (.bool false) [.int 2, .null]) = .ok true
    ∧ (∃ answer,
      compareBy "gt" (numbered (.bool false) [.int 2, .null]) (numbered (.int 0) []) = .ok answer
        ∧ compareBy "lt" (numbered (.int 0) []) (numbered (.bool false) [.int 2, .null]) = .ok answer)
    ∧ compareBy "gte" (numbered (.bool false) [.int 2, .null])
      (numbered (.float (.zero true)) [.null]) = .ok true := by
  have hx : (numbered (.int 0) []).Proper := proper_numbered (.int 0) (.set (by simp) (by simp))
  have hy : (numbered (.float (.zero true)) [.null]).Proper :=
    proper_numbered (.float _) (.set (by simp [Value.Frozen.null]) (by simp))
  have hz : (numbered (.bool false) [.int 2, .null]).Proper :=
    proper_numbered (.bool false) (.set (by simp [Value.Frozen.int, Value.Frozen.null]) (by decide))
  have hxy : ordered .less (numbered (.int 0) []) (numbered (.float (.zero true)) [.null]) = true := by
    decide +kernel
  have hyz : ordered .less (numbered (.float (.zero true)) [.null])
      (numbered (.bool false) [.int 2, .null]) = true := by
    decide +kernel
  have hzy : ordered .greater (numbered (.bool false) [.int 2, .null])
      (numbered (.float (.zero true)) [.null]) = true := by
    decide +kernel
  obtain ⟨-, htrans, -⟩ := ordering_coherent hx hy hz
  obtain ⟨-, -, hturned, -⟩ := ordering_coherent hz hx hy
  obtain ⟨-, -, -, -, hequal⟩ := ordering_coherent hz hy hx
  refine ⟨htrans (congrArg Except.ok hxy) (congrArg Except.ok hyz), hturned, ?_⟩
  exact (hequal nofun (fun h => nomatch h.1) nofun).mpr (.inl (congrArg Except.ok hzy))

end Operator

end ForwardChaining
