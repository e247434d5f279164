import ForwardChaining.Proofs.Value.Freezing
import ForwardChaining.Proofs.Value.Rank

/-!
This module contains the laws of the order of values. The order is partial: less is a strict order, the
other relations follow from it and from sameness, and values that are not ordered, or that differ first in
items that are not, stand in no relation.
-/

namespace ForwardChaining

namespace Relation

/-- The relation that holds the other way round. -/
def converse : Relation → Relation
  | .less => .greater
  | .lessEq => .greaterEq
  | .greater => .less
  | .greaterEq => .lessEq

theorem converse_converse (r : Relation) : r.converse.converse = r := by
  cases r <;> rfl

theorem accepts_converse (r : Relation) (o : Ordering) : r.converse.accepts o.swap = r.accepts o := by
  cases r <;> cases o <;> rfl

/-- The relation without equality. -/
def strict : Relation → Relation
  | .less | .lessEq => .less
  | .greater | .greaterEq => .greater

theorem accepts_strict (r : Relation) {o : Ordering} (h : o ≠ .eq) :
    r.strict.accepts o = r.accepts o := by
  cases r <;> cases o <;> first | rfl | exact absurd rfl h

theorem Precedes.converse {r : Relation} {p q : Extended} (h : r.Precedes p q) :
    r.converse.Precedes q p := by
  unfold Precedes at h ⊢
  rwa [Extended.compare_swap, accepts_converse]

end Relation

namespace Value

/-! ### When a relation holds -/

/-- How a relation can hold between two values. -/
inductive Related (r : Relation) : Value → Value → Prop
  | numbers {x y : Value} {p q : Extended} (hx : x.sense? = some (.inr p))
    (hy : y.sense? = some (.inr q)) (h : r.Precedes p q) : Related r x y
  | texts {s t : String} (h : r.accepts (compare s t) = true) : Related r (.text s) (.text t)
  | lists {xs ys : List Value} (h : relateItems r xs ys = .ok true) : Related r (.list xs) (.list ys)
  | tuples {xs ys : List Value} (h : relateItems r xs ys = .ok true) :
    Related r (.tuple xs) (.tuple ys)
  | sets {xs ys : List Value} (h : relateSets r xs ys = true) : Related r (.set xs) (.set ys)

theorem relate_eq_true {r : Relation} {x y : Value} : relate r x y = .ok true ↔ Related r x y := by
  constructor
  . intro h
    unfold relate at h
    split at h
    . exact .lists h
    . exact .tuples h
    . exact .sets (Except.ok.inj h)
    . unfold relateAtoms at h
      split at h
      . exact .texts (Except.ok.inj h)
      . split at h
        . next m n hm hn =>
          obtain ⟨o, ho, haccepts⟩ := Option.any_eq_true .. |>.mp (Except.ok.inj h)
          obtain ⟨p, q, hp, hq, rfl⟩ := Number.compare?_eq_some.mp ho
          refine .numbers (p := p) (q := q) ?_ ?_ haccepts
          . rw [sense?, hm, Option.map_some, Number.sense_eq_inr.mpr hp]
          . rw [sense?, hn, Option.map_some, Number.sense_eq_inr.mpr hq]
        . cases h
  . intro h
    cases h with
    | numbers hx hy h =>
      obtain ⟨m, hm, hp⟩ := number_of_sense hx
      obtain ⟨n, hn, hq⟩ := number_of_sense hy
      rw [relate_of_numbers r hm hn, Number.compare?_eq_some.mpr ⟨_, _, hp, hq, rfl⟩, Option.any_some]
      exact congrArg Except.ok h
    | texts h => exact congrArg Except.ok h
    | lists h => exact h
    | tuples h => exact h
    | sets h => exact congrArg Except.ok h

theorem relateItems_cons {r : Relation} {x y : Value} {xs ys : List Value} :
    relateItems r (x :: xs) (y :: ys) = .ok true
      ↔ (same x y = true ∧ relateItems r xs ys = .ok true) ∨ (same x y = false ∧ Related r x y) := by
  rw [relateItems]
  split
  . next hsame => simp [hsame]
  . next hdiffer => simp [hdiffer, relate_eq_true]

/-! ### The other way round -/

theorem relateSets_converse (r : Relation) (xs ys : List Value) :
    relateSets r.converse ys xs = relateSets r xs ys := by
  cases r <;> rfl

theorem relateItems_converse {r : Relation} {xs ys : List Value}
    (hsame : ∀ x ∈ xs, ∀ y ∈ ys, same x y = same y x)
    (hrelated : ∀ x ∈ xs, ∀ y ∈ ys, Related r x y → Related r.converse y x)
    (h : relateItems r xs ys = .ok true) : relateItems r.converse ys xs = .ok true := by
  induction xs generalizing ys with
  | nil =>
    cases ys with
    | nil => exact (congrArg Except.ok (r.accepts_converse .eq)).trans h
    | cons y ys => exact (congrArg Except.ok (r.accepts_converse .lt)).trans h
  | cons x xs ih =>
    cases ys with
    | nil => exact (congrArg Except.ok (r.accepts_converse .gt)).trans h
    | cons y ys =>
      rw [List.forall_mem_cons] at hsame hrelated
      rw [relateItems_cons] at h ⊢
      rw [← hsame.1 y List.mem_cons_self]
      rcases h with ⟨hfirst, h⟩ | ⟨hfirst, h⟩
      . left
        exact ⟨hfirst, ih (fun a ha b hb => hsame.2 a ha b (List.mem_cons_of_mem y hb))
          (fun a ha b hb => hrelated.2 a ha b (List.mem_cons_of_mem y hb)) h⟩
      . right
        exact ⟨hfirst, hrelated.1 y List.mem_cons_self h⟩

theorem Related.converse {r : Relation} {x y : Value} (hx : x.Proper) (hy : y.Proper)
    (h : Related r x y) : Related r.converse y x := by
  induction x using induction_on_parts generalizing y with
  | step x ih =>
    cases h with
    | numbers hp hq h => exact .numbers hq hp h.converse
    | @texts s t h =>
      have hswap : compare t s = (compare s t).swap := Std.OrientedCmp.eq_swap
      apply texts
      rwa [hswap, Relation.accepts_converse]
    | lists h =>
      cases hx with
      | list hxs =>
      cases hy with
      | list hys =>
        exact .lists (relateItems_converse (fun a ha b hb => (hxs a ha).same_comm (hys b hb))
          (fun a ha b hb => ih a ha (hxs a ha) (hys b hb)) h)
    | tuples h =>
      cases hx with
      | tuple hxs =>
      cases hy with
      | tuple hys =>
        exact .tuples (relateItems_converse (fun a ha b hb => (hxs a ha).same_comm (hys b hb))
          (fun a ha b hb => ih a ha (hxs a ha) (hys b hb)) h)
    | sets h => exact .sets ((relateSets_converse _ _ _).trans h)

/-! ### Values in the same place -/

theorem same_of_sense {x y : Value} {p : Extended} (hx : x.sense? = some (.inr p)) :
    same x y = true ↔ y.sense? = some (.inr p) := by
  obtain ⟨m, hm, hp⟩ := number_of_sense hx
  rw [same_number_iff hm, sense?, Option.map_eq_some_iff, Number.sense_eq_inr.mpr hp]
  simp only [eq_comm]

theorem relateItems_of_sameItems {r : Relation} {xs ys : List Value} (h : sameItems xs ys = true) :
    relateItems r xs ys = .ok (r.accepts .eq) := by
  induction xs generalizing ys with
  | nil =>
    cases ys with
    | nil => rfl
    | cons y ys => cases h
  | cons x xs ih =>
    cases ys with
    | nil => cases h
    | cons y ys =>
      rw [sameItems, Bool.and_eq_true] at h
      rw [relateItems, if_pos h.1, ih h.2]

theorem Related.accepts_eq {r : Relation} {x y : Value} (h : Related r x y) (hsame : same x y = true) :
    r.accepts .eq = true := by
  cases h with
  | numbers hp hq h =>
    rw [same_of_sense hp] at hsame
    rw [hsame, Option.some.injEq, Sum.inr.injEq] at hq
    subst hq
    rwa [Relation.Precedes, (Extended.compare_eq_iff _ _).mpr rfl] at h
  | texts h =>
    rw [same, beq_iff_eq] at hsame
    have hself : ∀ t : String, compare t t = .eq := fun _ => Std.ReflCmp.compare_self
    rwa [hsame, hself] at h
  | lists h | tuples h =>
    rw [same] at hsame
    rwa [relateItems_of_sameItems hsame, Except.ok.injEq] at h
  | sets h =>
    rw [same, Bool.and_eq_true, beq_iff_eq] at hsame
    cases r <;> simp_all [relateSets, Relation.accepts]

theorem relateItems_of_same {r : Relation} {xs ys zs : List Value}
    (hsymm : ∀ x ∈ xs, ∀ y ∈ ys, same x y = true → same y x = true)
    (hrelated : ∀ x ∈ xs, ∀ y ∈ ys, ∀ z ∈ zs, same x y = true → Related r y z → Related r x z)
    (hsame : sameItems xs ys = true) (h : relateItems r ys zs = .ok true) :
    relateItems r xs zs = .ok true := by
  induction xs generalizing ys zs with
  | nil =>
    cases ys with
    | nil => exact h
    | cons y ys => cases hsame
  | cons x xs ih =>
    cases ys with
    | nil => cases hsame
    | cons y ys =>
      cases zs with
      | nil => exact h
      | cons z zs =>
        rw [sameItems, Bool.and_eq_true] at hsame
        rw [relateItems_cons] at h ⊢
        rcases h with ⟨hfirst, h⟩ | ⟨hfirst, h⟩
        . left
          refine ⟨same_trans x y z hsame.1 hfirst, ih ?_ ?_ hsame.2 h⟩
          . exact fun a ha b hb => hsymm a (by simp [ha]) b (by simp [hb])
          . exact fun a ha b hb c hc =>
              hrelated a (by simp [ha]) b (by simp [hb]) c (by simp [hc])
        . right
          constructor
          . rw [Bool.eq_false_iff] at hfirst ⊢
            exact fun hxz => hfirst (same_trans y x z (hsymm x (by simp) y (by simp) hsame.1) hxz)
          . exact hrelated x (by simp) y (by simp) z (by simp) hsame.1 h

theorem subset_trans {xs ys zs : List Value} (hxy : subset xs ys = true) (hyz : subset ys zs = true) :
    subset xs zs = true := by
  rw [subset_iff] at hxy hyz ⊢
  intro x hx
  obtain ⟨y, hy, hsame⟩ := hxy x hx
  obtain ⟨z, hz, hsame'⟩ := hyz y hy
  exact ⟨z, hz, same_trans x y z hsame hsame'⟩

theorem Related.of_same {r : Relation} {x y z : Value} (hx : x.Proper) (hy : y.Proper)
    (hsame : same x y = true) (h : Related r y z) : Related r x z := by
  induction x using induction_on_parts generalizing y z with
  | step x ih =>
    have hback := hx.same_symm hy hsame
    cases h with
    | numbers hp hq h => exact .numbers ((same_of_sense hp).mp hback) hq h
    | texts h =>
      cases x <;> simp only [same, Bool.false_eq_true, beq_iff_eq] at hback
      rw [← hback]
      exact .texts h
    | lists h =>
      cases hx with
      | list hxs =>
        cases hy with
        | list hys =>
          rw [same] at hsame
          exact .lists (relateItems_of_same (fun a ha b hb => (hxs a ha).same_symm (hys b hb))
            (fun a ha b hb c _ hab => ih a ha (hxs a ha) (hys b hb) hab) hsame h)
      | _ => cases hback
    | tuples h =>
      cases hx with
      | tuple hxs =>
        cases hy with
        | tuple hys =>
          rw [same] at hsame
          exact .tuples (relateItems_of_same (fun a ha b hb => (hxs a ha).same_symm (hys b hb))
            (fun a ha b hb c _ hab => ih a ha (hxs a ha) (hys b hb) hab) hsame h)
      | _ => cases hback
    | sets h =>
      cases x <;> simp only [same, Bool.false_eq_true, Bool.and_eq_true, beq_iff_eq] at hsame hback
      apply sets
      cases r <;> simp only [relateSets, Bool.and_eq_true, decide_eq_true_eq] at h ⊢
      . exact ⟨hsame.1 ▸ h.1, subset_trans hsame.2 h.2⟩
      . exact ⟨hsame.1 ▸ h.1, subset_trans hsame.2 h.2⟩
      . exact ⟨hsame.1 ▸ h.1, subset_trans h.2 hback.2⟩
      . exact ⟨hsame.1 ▸ h.1, subset_trans h.2 hback.2⟩

theorem Related.to_same {r : Relation} {x y z : Value} (hx : x.Proper) (hy : y.Proper)
    (hz : z.Proper) (h : Related r x y) (hsame : same y z = true) : Related r x z := by
  have hconverse := (h.converse hx hy).of_same hz hy (hy.same_symm hz hsame)
  rw [← r.converse_converse]
  exact hconverse.converse hz hx

/-! ### Less -/

theorem Related.irrefl {x : Value} (hx : x.Proper) : ¬ Related .less x x := by
  intro h
  have hless := h.accepts_eq hx.same_refl
  cases hless

theorem same_eq_false_of_less {x y : Value} (h : Related .less x y) : same x y = false := by
  rw [Bool.eq_false_iff]
  intro hsame
  have hless := h.accepts_eq hsame
  cases hless

theorem relateItems_trans {xs ys zs : List Value} (hxs : ∀ x ∈ xs, x.Proper) (hys : ∀ y ∈ ys, y.Proper)
    (hzs : ∀ z ∈ zs, z.Proper)
    (htrans : ∀ x ∈ xs, ∀ y ∈ ys, ∀ z ∈ zs, Related .less x y → Related .less y z → Related .less x z)
    (hxy : relateItems .less xs ys = .ok true) (hyz : relateItems .less ys zs = .ok true) :
    relateItems .less xs zs = .ok true := by
  induction xs generalizing ys zs with
  | nil =>
    cases ys with
    | nil => cases hxy
    | cons y ys =>
      cases zs with
      | nil => cases hyz
      | cons z zs => rfl
  | cons x xs ih =>
    cases ys with
    | nil => cases hxy
    | cons y ys =>
      cases zs with
      | nil => cases hyz
      | cons z zs =>
        rw [List.forall_mem_cons] at hxs hys hzs
        rw [relateItems_cons] at hxy hyz ⊢
        -- the earlier one of the two places at which items differ decides
        rcases hxy with ⟨hsame, hxy⟩ | ⟨-, hxy⟩
        . rcases hyz with ⟨hsame', hyz⟩ | ⟨-, hyz⟩
          . left
            refine ⟨same_trans x y z hsame hsame', ih hxs.2 hys.2 hzs.2 ?_ hxy hyz⟩
            exact fun a ha b hb c hc => htrans a (by simp [ha]) b (by simp [hb]) c (by simp [hc])
          . right
            have hxz := hyz.of_same hxs.1 hys.1 hsame
            exact ⟨same_eq_false_of_less hxz, hxz⟩
        . right
          have hxz : Related .less x z := by
            rcases hyz with ⟨hsame', -⟩ | ⟨-, hyz⟩
            . exact hxy.to_same hxs.1 hys.1 hzs.1 hsame'
            . exact htrans x (by simp) y (by simp) z (by simp) hxy hyz
          exact ⟨same_eq_false_of_less hxz, hxz⟩

theorem Related.trans {x y z : Value} (hx : x.Proper) (hy : y.Proper) (hz : z.Proper)
    (hxy : Related .less x y) (hyz : Related .less y z) : Related .less x z := by
  induction x using induction_on_parts generalizing y z with
  | step x ih =>
    -- Only numbers are related across kinds. Lists and tuples go back to their items.
    cases hxy with
    | numbers hp hq hpq =>
      cases hyz with
      | numbers hq' hs hqs =>
        rw [hq, Option.some.injEq, Sum.inr.injEq] at hq'
        subst hq'
        exact .numbers hp hs (hpq.trans (.inl rfl) hqs)
      | _ => cases hq
    | texts hst =>
      cases hyz with
      | numbers hq => cases hq
      | texts htu =>
        rw [Relation.accepts, beq_iff_eq] at hst htu
        apply texts
        rw [Relation.accepts, beq_iff_eq]
        exact Std.TransCmp.lt_trans hst htu
    | lists hxy =>
      cases hyz with
      | numbers hq => cases hq
      | lists hyz =>
        cases hx with
        | list hxs =>
        cases hy with
        | list hys =>
        cases hz with
        | list hzs =>
          exact .lists (relateItems_trans hxs hys hzs
            (fun a ha b hb c hc => ih a ha (hxs a ha) (hys b hb) (hzs c hc)) hxy hyz)
    | tuples hxy =>
      cases hyz with
      | numbers hq => cases hq
      | tuples hyz =>
        cases hx with
        | tuple hxs =>
        cases hy with
        | tuple hys =>
        cases hz with
        | tuple hzs =>
          exact .tuples (relateItems_trans hxs hys hzs
            (fun a ha b hb c hc => ih a ha (hxs a ha) (hys b hb) (hzs c hc)) hxy hyz)
    | sets hxy =>
      cases hyz with
      | numbers hq => cases hq
      | sets hyz =>
        simp only [relateSets, Bool.and_eq_true, decide_eq_true_eq] at hxy hyz
        apply sets
        simp only [relateSets, Bool.and_eq_true, decide_eq_true_eq]
        exact ⟨hxy.1.trans hyz.1, subset_trans hxy.2 hyz.2⟩

/-! ### Strict relations -/

/-- The value is of a kind whose values are ordered, and it is no NaN. -/
def IsOrdered : Value → Prop
  | .null | .record _ | .callable .. | .float (.nan _) => False
  | _ => True

/-- The value is a record. -/
def IsRecord (x : Value) : Prop :=
  ∃ fields, x = .record fields

/-- The value can be called. -/
def IsCallable (x : Value) : Prop :=
  ∃ ident name, x = .callable ident name

theorem isOrdered_iff {x : Value} (hnull : x ≠ .null) (hrecord : ¬ x.IsRecord)
    (hcallable : ¬ x.IsCallable) : x.IsOrdered ↔ ¬ x.IsNaN := by
  cases x with
  | null => exact absurd rfl hnull
  | record fields => exact absurd ⟨fields, rfl⟩ hrecord
  | callable ident name => exact absurd ⟨ident, name, rfl⟩ hcallable
  | float z =>
    cases z with
    | nan origin => exact iff_of_false id fun h => h ⟨origin, rfl⟩
    | infinite | finite => exact iff_of_true trivial nofun
  | _ => exact iff_of_true trivial nofun

theorem sense_of_isOrdered {x : Value} {m : Number} (hx : x.number? = some m) (h : x.IsOrdered) :
    ∃ p, x.sense? = some (.inr p) := by
  cases x with
  | bool b | int n => cases hx; exact ⟨_, rfl⟩
  | float z =>
    cases z with
    | nan => exact False.elim h
    | infinite negative => cases hx; cases negative <;> exact ⟨_, rfl⟩
    | finite => cases hx; exact ⟨_, rfl⟩
  | _ => cases hx

theorem Related.isOrdered {r : Relation} {x y : Value} (h : Related r x y) : x.IsOrdered := by
  cases h with
  | numbers hp =>
    unfold IsOrdered
    split <;> first | cases hp | trivial
  | _ => trivial

theorem related_iff_of_same {r : Relation} {x y : Value} (hx : x.Proper) (hy : y.Proper)
    (hsame : same x y = true) : Related r x y ↔ r.accepts .eq = true ∧ x.IsOrdered := by
  refine ⟨fun h => ⟨h.accepts_eq hsame, h.isOrdered⟩, fun ⟨haccepts, h⟩ => ?_⟩
  have hback := hx.same_symm hy hsame
  cases hnumber : x.number? with
  | some m =>
    obtain ⟨p, hp⟩ := sense_of_isOrdered hnumber h
    refine .numbers hp ((same_of_sense hp).mp hsame) ?_
    rwa [Relation.Precedes, (Extended.compare_eq_iff p p).mpr rfl]
  | none =>
    cases x with
    | null | record | callable => exact False.elim h
    | bool | int | float => cases hnumber
    | text s =>
      cases y <;> simp only [same, Bool.false_eq_true, beq_iff_eq] at hsame
      have hself : compare s s = .eq := Std.ReflCmp.compare_self
      rw [← hsame]
      exact .texts (by rwa [hself])
    | list xs =>
      cases y <;> simp only [same, Bool.false_eq_true] at hsame
      exact .lists (by rw [relateItems_of_sameItems hsame, haccepts])
    | tuple xs =>
      cases y <;> simp only [same, Bool.false_eq_true] at hsame
      exact .tuples (by rw [relateItems_of_sameItems hsame, haccepts])
    | set xs =>
      cases y <;> simp only [same, Bool.false_eq_true, Bool.and_eq_true, beq_iff_eq] at hsame hback
      refine .sets ?_
      cases r <;> simp_all [relateSets, Relation.accepts]

theorem relateSets_strict (r : Relation) {xs ys : List Value} (hxs : (set xs).Proper)
    (hys : (set ys).Proper) (hdiffer : same (set xs) (set ys) = false) :
    relateSets r.strict xs ys = relateSets r xs ys := by
  have hback : same (set ys) (set xs) = false := (hys.same_comm hxs).trans hdiffer
  rw [same, Bool.and_eq_false_iff, beq_eq_false_iff_ne] at hdiffer hback
  rw [Bool.eq_iff_iff]
  cases r <;> simp only [Relation.strict, relateSets, Bool.and_eq_true, decide_eq_true_eq]
  . refine and_congr_left fun hsub => lt_iff_le_and_ne.trans (and_iff_left ?_)
    exact hdiffer.resolve_right (by simp [hsub])
  . refine and_congr_left fun hsub => lt_iff_le_and_ne.trans (and_iff_left ?_)
    exact hback.resolve_right (by simp [hsub])

theorem relateItems_strict (r : Relation) {xs ys : List Value}
    (h : ∀ x ∈ xs, ∀ y ∈ ys, same x y = false → relate r.strict x y = relate r x y)
    (hdiffer : sameItems xs ys = false) : relateItems r.strict xs ys = relateItems r xs ys := by
  induction xs generalizing ys with
  | nil =>
    cases ys with
    | nil => cases hdiffer
    | cons y ys => exact congrArg Except.ok (r.accepts_strict Ordering.noConfusion)
  | cons x xs ih =>
    cases ys with
    | nil => exact congrArg Except.ok (r.accepts_strict Ordering.noConfusion)
    | cons y ys =>
      rw [relateItems, relateItems]
      split
      . next hsame =>
        rw [sameItems, hsame, Bool.true_and] at hdiffer
        exact ih (fun a ha b hb => h a (by simp [ha]) b (by simp [hb])) hdiffer
      . next hfirst => exact h x (by simp) y (by simp) (Bool.eq_false_iff.mpr hfirst)

theorem relateAtoms_strict (r : Relation) {x y : Value} (hdiffer : same x y = false) :
    relateAtoms r.strict x y = relateAtoms r x y := by
  unfold relateAtoms
  split
  . next s t =>
    rw [same, beq_eq_false_iff_ne] at hdiffer
    exact congrArg Except.ok (r.accepts_strict (mt Std.LawfulEqCmp.compare_eq_iff_eq.mp hdiffer))
  . split
    . next m n hm hn =>
      cases hcompare : m.compare? n with
      | none => rfl
      | some o =>
        refine congrArg Except.ok (r.accepts_strict ?_)
        rintro rfl
        obtain ⟨p, q, hp, hq, hpq⟩ := Number.compare?_eq_some.mp hcompare
        obtain rfl := (Extended.compare_eq_iff p q).mp hpq
        have hsame := (same_number_iff hm).mpr
          ⟨n, hn, (Number.sense_eq_inr.mpr hp).trans (Number.sense_eq_inr.mpr hq).symm⟩
        exact Bool.noConfusion (hsame.symm.trans hdiffer)
    . rfl

theorem relate_strict (r : Relation) {x y : Value} (hx : x.Proper) (hy : y.Proper)
    (hdiffer : same x y = false) : relate r.strict x y = relate r x y := by
  induction x using induction_on_parts generalizing y with
  | step x ih =>
    unfold relate
    split
    . cases hx with
      | list hxs =>
      cases hy with
      | list hys =>
        exact relateItems_strict r (fun a ha b hb => ih a ha (hxs a ha) (hys b hb)) hdiffer
    . cases hx with
      | tuple hxs =>
      cases hy with
      | tuple hys =>
        exact relateItems_strict r (fun a ha b hb => ih a ha (hxs a ha) (hys b hb)) hdiffer
    . exact congrArg Except.ok (relateSets_strict r hx hy hdiffer)
    . exact relateAtoms_strict r hdiffer

theorem related_greaterEq_iff {x y : Value} (hx : x.Proper) (hy : y.Proper) :
    Related .greaterEq x y ↔ Related .greater x y ∨ same x y = true ∧ x.IsOrdered := by
  cases hsame : same x y with
  | true =>
    rw [related_iff_of_same hx hy hsame, related_iff_of_same hx hy hsame]
    simp [Relation.accepts]
  | false =>
    rw [← relate_eq_true, ← relate_strict .greaterEq hx hy hsame, relate_eq_true]
    simp [Relation.strict]

end Value
end ForwardChaining
