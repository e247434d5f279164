import ForwardChaining.Proofs.Rule.Comparison
import ForwardChaining.Proofs.Value.Freezing

/-!
This module contains what it means for a fact to have the key that a token asks for. Each correlated field
equals the field it is correlated with, except that keys do not tell the kinds of sequences apart and take a
NaN for equal to itself.
-/

namespace ForwardChaining

/-- All fields of the fact hold values that can exist. -/
def Fact.Proper (fact : Fact) : Prop :=
  ∀ field, (fact.get field).Proper

namespace KeyBinding

/-- The field of the fact equals the bound field. -/
def Equates (k : KeyBinding) (fact : Fact) (bindings : Bindings) : Prop :=
  ∃ x, k.ref.resolve bindings = .ok x ∧ (fact.get k.field).eq x = true

/-- A key does not tell the field of the fact from the bound field, although they may be unequal. -/
def Blurs (k : KeyBinding) (fact : Fact) (bindings : Bindings) : Prop :=
  ∃ x, k.ref.resolve bindings = .ok x
    ∧ ((fact.get k.field).IsNaN ∨ Value.Clash (fact.get k.field) x)

theorem equates_iff {k : KeyBinding} {fact : Fact} {bindings : Bindings} {x : Value}
    (hx : k.ref.resolve bindings = .ok x) (hproper : x.Proper) (hfact : fact.Proper) :
    k.Equates fact bindings ↔ Value.same (fact.get k.field).frozen x.frozen = true
      ∧ ¬ k.Blurs fact bindings := by
  have hdiscerned : Value.same (fact.get k.field) x = true
      ↔ Value.same (fact.get k.field).frozen x.frozen = true ∧ ¬ Value.Clash (fact.get k.field) x :=
    (hfact k.field).discerned hproper
  simp only [Equates, Blurs, hx, Except.ok.injEq, exists_eq_left', Value.eq_iff, hdiscerned]
  tauto

end KeyBinding

theorem same_factKey_iff {keys : List KeyBinding} {bindings : Bindings} {key : Key}
    (hkey : bindingKey keys bindings = .ok key) (fact : Fact) :
    Key.same (factKey keys fact) key = true ↔ ∀ k ∈ keys, ∃ x, k.ref.resolve bindings = .ok x
      ∧ Value.same (fact.get k.field).frozen x.frozen = true := by
  unfold bindingKey at hkey
  induction keys generalizing key with
  | nil =>
    cases hkey
    exact iff_of_true rfl (by simp)
  | cons k keys ih =>
    simp only [List.mapM_cons, doBind_eq_ok, map_eq_ok] at hkey
    obtain ⟨-, ⟨x, hx, rfl⟩, rest, hrest, heq⟩ := hkey
    cases heq
    have hcons : Key.same (factKey (k :: keys) fact) (x.frozen :: rest)
        = (Value.same (fact.get k.field).frozen x.frozen && Key.same (factKey keys fact) rest) := rfl
    simp only [hcons, Bool.and_eq_true, ih hrest, List.forall_mem_cons, hx, Except.ok.injEq,
      exists_eq_left']

/-- The fields that a condition correlates with bound ones. -/
def Condition.keys : Condition → List KeyBinding
  | .negation _ keys | .aggregate _ keys _ => keys
  | _ => []

section Compiled

variable {spec : RuleSetSpec} {ruleSet : RuleSet} (hcompile : spec.compile = .ok ruleSet)

include hcompile

/--
In a compiled rule, the bindings before a condition have a key under its correlations, and each field of a
fact equals the bound field if and only if the fact has this key and no field is blurred by it: none is a
NaN, and nowhere in the two values do a list, a tuple and a record stand in the same place.
-/
theorem correlates_iff {rule : Rule} (hrule : rule ∈ ruleSet.rules) {before after : List Condition}
    {condition : Condition} (hsplit : rule.conditions = before ++ condition :: after)
    {bindings : Bindings} (hbindings : bindings.map (·.1) = before.filterMap (·.var?))
    (hproper : ∀ binding ∈ bindings, binding.2.Proper) {fact : Fact} (hfact : fact.Proper) :
    ∃ key, bindingKey condition.keys bindings = .ok key
      ∧ ((∀ k ∈ condition.keys, k.Equates fact bindings)
        ↔ Key.same (factKey condition.keys fact) key = true
          ∧ ∀ k ∈ condition.keys, ¬ k.Blurs fact bindings) := by
  have hbinds := binds_of_scoped ((wellFormed_of_compile hcompile).scope rule hrule) hsplit hbindings
  have hbound : ∀ k ∈ condition.keys, bindings.Binds k.ref.var := by
    intro k hk
    apply hbinds
    cases condition with
    | negation | aggregate => exact List.mem_map_of_mem hk
    | pattern | join => cases hk
  have hresolve : ∀ k ∈ condition.keys, ∃ x, k.ref.resolve bindings = .ok x ∧ x.Proper := by
    intro k hk
    obtain ⟨found, hfound, hmem⟩ := (hbound k hk).lookup
    exact ⟨found.get k.ref.field, by simp only [FieldRef.resolve, hfound], hproper _ hmem _⟩
  obtain ⟨key, hkey⟩ := bindingKey_ok hbound
  refine ⟨key, hkey, ?_⟩
  rw [same_factKey_iff hkey, ← forall₂_and]
  refine forall₂_congr fun k hk => ?_
  obtain ⟨x, hx, hxproper⟩ := hresolve k hk
  rw [KeyBinding.equates_iff hx hxproper hfact]
  simp only [hx, Except.ok.injEq, exists_eq_left']

end Compiled
/-! ### A list in place of a tuple -/

/-- A request that no record answers with the same value. -/
def openSpec : RuleSetSpec where
  factTypes := [{ name := "request" }, { name := "record" }]
  rules := [{
    name := "open"
    conditions := [
      .pattern { var := "r", factType := "request" },
      .negation { factType := "record", correlations := [("value", "r.value")] }] }]

/-- The correlation of the rule. -/
def openKeys : List KeyBinding :=
  [⟨"value", ⟨"r", "value"⟩⟩]

def openRule : Rule where
  name := "open"
  conditions := [.pattern { type := "request" } "r", .negation { type := "record" } openKeys]

def openRuleSet (digest : String) : RuleSet where
  factTypes := [{ name := "request" }, { name := "record" }]
  rules := [openRule]
  index := .build [openRule]
  digest

theorem compile_openSpec : openSpec.compile = .ok (openRuleSet openSpec.digest) :=
  compile_eq_ok.mpr ⟨_, _, rfl, by cbv, rfl⟩

/-- A fact that holds one value. -/
def holding (id : Int) (type : String) (x : Value) : Fact where
  id
  type
  data := .ofFields [("value", x)]

theorem proper_holding (id : Int) (type : String) {x : Value} (hx : x.Proper) :
    (holding id type x).Proper := by
  intro field
  have hget : (holding id type x).get field = if "value" = field then x else .null := by
    simp only [holding, Fact.get, Entries.ofFields, List.map_cons, List.map_nil, Entries.get?,
      Value.same, beq_iff_eq]
    split <;> rfl
  rw [hget]
  split
  . exact hx
  . exact .null

/-- The bindings of a request. -/
def requestOf (x : Value) : Bindings :=
  [("r", holding 1 "request" x)]

/-- The record has the key of the request and blocks the rule, but a tuple does not equal a list. -/
theorem tuple_has_key_of_list : openSpec.compile = .ok (openRuleSet openSpec.digest)
    ∧ openRule ∈ (openRuleSet openSpec.digest).rules
    ∧ bindingKey openKeys (requestOf (.list [.int 1])) = .ok [.tuple [.int 1]]
    ∧ Key.same (factKey openKeys (holding 2 "record" (.tuple [.int 1]))) [.tuple [.int 1]] = true
    ∧ Value.eq (.tuple [.int 1]) (.list [.int 1]) = false :=
  ⟨compile_openSpec, by simp [openRuleSet], by rfl, by decide, by decide⟩

/-- Records are equal whatever the order of their fields, so this fact has the key of the request. -/
theorem correlates_iff_open :
    ∃ key, bindingKey openKeys (requestOf (.record [("b", .list []), ("a", .bool true)])) = .ok key
      ∧ Key.same (factKey openKeys (holding 2 "record" (.record [("a", .int 1), ("b", .list [])]))) key
        = true := by
  have hrequest : (Value.record [("b", .list []), ("a", .bool true)]).Proper :=
    .record (by simpa using ⟨.list (by simp), .bool true⟩) (by decide)
  have hrecord : (Value.record [("a", .int 1), ("b", .list [])]).Proper :=
    .record (by simpa using ⟨.int 1, .list (by simp)⟩) (by decide)
  have hrule : openRule ∈ (openRuleSet openSpec.digest).rules := by simp [openRuleSet]
  have hsplit : openRule.conditions
      = [.pattern { type := "request" } "r"] ++ .negation { type := "record" } openKeys :: [] := rfl
  obtain ⟨key, hkey, hiff⟩ := correlates_iff compile_openSpec hrule hsplit
    (show (requestOf _).map (·.1) = _ from rfl)
    (by simpa [requestOf] using proper_holding 1 "request" hrequest)
    (proper_holding 2 "record" hrecord)
  refine ⟨key, hkey, (hiff.mp ?_).1⟩
  rintro k ⟨⟩
  . exact ⟨_, rfl, by decide⟩
  . contradiction

end ForwardChaining
