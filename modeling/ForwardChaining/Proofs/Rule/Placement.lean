import ForwardChaining.Proofs.Rule.Acceptance
import Mathlib.Data.List.Pairwise

/-!
This module contains what a declaration owes to its place among the others. A rule is compiled to the same at
every place but for the place itself, so that the rules of two specifications are told apart only by where
they stand.
-/

namespace ForwardChaining

namespace Rule

/-- The rule, declared at another place. -/
def placed (rule : Rule) (order : Int) : Rule :=
  { rule with order }

/-- The place of the rule of a name. -/
def placeOf (rules : List Rule) (name : String) : Int :=
  ((rules.find? (·.name = name)).map (·.order)).getD 0

/-- The rule at the place that it has among others. -/
def among (rules : List Rule) (rule : Rule) : Rule :=
  rule.placed (placeOf rules rule.name)

section Among

variable {rules : List Rule} (hnames : (rules.map (·.name)).Nodup)

include hnames

theorem placeOf_of_mem {rule : Rule} (hrule : rule ∈ rules) :
    placeOf rules rule.name = rule.order := by
  unfold placeOf
  cases hfind : rules.find? (·.name = rule.name) with
  | none =>
    rw [List.find?_eq_none] at hfind
    exact absurd (by simp) (hfind rule hrule)
  | some other =>
    have hname : other.name = rule.name := by simpa using List.find?_some hfind
    rw [List.inj_on_of_nodup_map hnames (List.mem_of_find?_eq_some hfind) hrule hname]
    rfl

theorem among_self {rule : Rule} (hrule : rule ∈ rules) : rule.among rules = rule := by
  rw [among, placeOf_of_mem hnames hrule]
  rfl

theorem map_among : (rules.map (·.placed 0)).map (·.among rules) = rules := by
  rw [List.map_map]
  conv_rhs => rw [← List.map_id rules]
  exact List.map_congr_left fun rule hrule => among_self hnames hrule

theorem perm_among {others extras : List Rule}
    (h : (rules.map (·.placed 0)).Perm ((extras ++ others).map (·.placed 0))) :
    rules.Perm ((extras ++ others).map (·.among rules)) := by
  have hplaced := h.map (·.among rules)
  rwa [map_among hnames, List.map_map] at hplaced

theorem sublist_among {others : List Rule}
    (h : (others.map (·.placed 0)).Sublist (rules.map (·.placed 0))) :
    (others.map (·.among rules)).Sublist rules := by
  have hplaced := h.map (·.among rules)
  rwa [map_among hnames, List.map_map] at hplaced

end Among

/--
The rules of a host are some rules and extra ones, at places of their own. Rules that nothing but the order
of declaration tells apart are declared in the same order.
-/
structure Hosted (host extras rules : List Rule) : Prop where
  names : (host.map (·.name)).Nodup
  orders : rules.Pairwise fun a b => a.order < b.order
  perm : host.Perm ((extras ++ rules).map (·.among host))
  keeps : ∀ a ∈ rules, ∀ b ∈ rules, b.priority = a.priority →
    compare (a.among host).order (b.among host).order = compare a.order b.order

section Hosted

variable {host extras rules : List Rule} (h : Hosted host extras rules)

include h

theorem Hosted.mem_host {rule : Rule} :
    rule ∈ host ↔ (∃ extra ∈ extras, rule = extra.among host) ∨ ∃ other ∈ rules, rule = other.among host := by
  rw [h.perm.mem_iff, List.map_append, List.mem_append, List.mem_map, List.mem_map]
  simp only [eq_comm]

theorem Hosted.among_mem {rule : Rule} (hrule : rule ∈ rules) : rule.among host ∈ host :=
  h.mem_host.mpr (.inr ⟨rule, hrule, rfl⟩)

theorem Hosted.covered : ∀ rule ∈ rules, ∃ other ∈ host, other.conditions = rule.conditions :=
  fun rule hrule => ⟨rule.among host, h.among_mem hrule, rfl⟩

theorem Hosted.fresh {extra : Rule} (hextra : extra ∈ extras) {rule : Rule} (hrule : rule ∈ rules) :
    rule.name ≠ extra.name := by
  have hnames := (h.perm.map (·.name)).nodup_iff.mp h.names
  rw [List.map_map, List.map_append, List.nodup_append] at hnames
  exact fun heq => hnames.2.2 _ (List.mem_map_of_mem hextra) _ (List.mem_map_of_mem hrule) heq.symm

end Hosted

theorem compare_order {rules : List Rule} (h : rules.Pairwise fun a b => a.order < b.order)
    {f : Rule → Int} (hf : rules.Pairwise fun a b => f a < f b) :
    ∀ a ∈ rules, ∀ b ∈ rules, compare (f a) (f b) = compare a.order b.order := by
  have hsymm : Std.Symm fun a b : Rule => compare (f a) (f b) = compare a.order b.order := by
    refine ⟨fun a b heq => ?_⟩
    have hswap := congrArg Ordering.swap heq
    rwa [← Std.OrientedOrd.eq_swap, ← Std.OrientedOrd.eq_swap] at hswap
  apply List.Pairwise.forall_of_forall
  . intro a _
    rw [Std.ReflOrd.compare_self, Std.ReflOrd.compare_self]
  . apply (h.and hf).imp
    rintro a b ⟨hbefore, hbefore'⟩
    rw [Int.compare_eq_lt.mpr hbefore, Int.compare_eq_lt.mpr hbefore']

end Rule

/-! ### Compilation -/

theorem compileRule_placed (types : Declarations) (order : Int) (spec : RuleSpec) :
    compileRule types order spec = (compileRule types 0 spec).map (·.placed order) := by
  unfold compileRule
  cases compileConditions types spec.name 0 [] spec.conditions with
  | mk conditions bound =>
    dsimp only
    cases conditions <;> cases compileActions types bound spec <;> rfl

/-- What a rule is compiled to in the first place. -/
def RuleSpec.compiled (types : Declarations) (spec : RuleSpec) : Rule :=
  (compileRule types 0 spec).toOption.getD default

theorem compiled_of_compileRules {types : Declarations} {order : Nat} {seen : List String}
    {specs : List RuleSpec} {rules : List Rule}
    (h : compileRules types order seen specs = .ok rules) :
    rules.map (·.placed 0) = specs.map (·.compiled types)
      ∧ ∀ spec ∈ specs, compileRule types 0 spec = .ok (spec.compiled types) := by
  induction specs generalizing order seen rules with
  | nil =>
    cases h
    simp
  | cons spec specs ih =>
    simp only [compileRules, Checked.apply_eq_ok, Checked.map_eq_ok] at h
    obtain ⟨-, rest, ⟨rule, hrule, rfl⟩, hrest, rfl⟩ := h
    obtain ⟨hmap, hcompiled⟩ := ih hrest
    split at hrule
    . simp at hrule
    . rw [compileRule_placed, Checked.map_eq_ok] at hrule
      obtain ⟨first, hfirst, rfl⟩ := hrule
      have heq : spec.compiled types = first := by
        rw [RuleSpec.compiled, hfirst]
        rfl
      have hplaced : first.placed 0 = first := by
        rw [compileRule_placed, Checked.map_eq_ok] at hfirst
        obtain ⟨_, -, rfl⟩ := hfirst
        rfl
      rw [List.map_cons, List.map_cons, hmap, List.forall_mem_cons, heq]
      exact ⟨congrArg (· :: _) hplaced, hfirst, hcompiled⟩

theorem compileRule_fields {types : Declarations} {order : Int} {spec : RuleSpec} {rule : Rule}
    (h : compileRule types order spec = .ok rule) :
    rule.name = spec.name ∧ rule.priority = spec.priority ∧ rule.explanation = spec.explanation := by
  simp only [compileRule, Checked.seq_eq_ok, Checked.functorMap_eq_ok] at h
  obtain ⟨-, action, ⟨conditions, -, rfl⟩, -, rfl⟩ := h
  exact ⟨rfl, rfl, rfl⟩

theorem compiled_of_compile {spec : RuleSetSpec} {ruleSet : RuleSet} (h : spec.compile = .ok ruleSet) :
    ruleSet.rules.map (·.placed 0)
        = spec.rules.map (·.compiled (Declarations.ofSpecs spec.factTypes))
      ∧ ∀ rule ∈ spec.rules, compileRule (Declarations.ofSpecs spec.factTypes) 0 rule
        = .ok (rule.compiled (Declarations.ofSpecs spec.factTypes)) := by
  obtain ⟨_, rules, -, hrules, rfl⟩ := compile_eq_ok.mp h
  exact compiled_of_compileRules hrules

theorem priorities_of_compile {spec : RuleSetSpec} {ruleSet : RuleSet}
    (h : spec.compile = .ok ruleSet) :
    ruleSet.rules.map (·.priority) = spec.rules.map (·.priority) := by
  obtain ⟨hplaced, hcompiled⟩ := compiled_of_compile h
  have hpriorities := congrArg (List.map (·.priority)) hplaced
  rw [List.map_map, List.map_map] at hpriorities
  refine hpriorities.trans (List.map_congr_left fun rule hrule => ?_)
  exact (compileRule_fields (hcompiled rule hrule)).2.1

section Hosted

variable {spec spec' : RuleSetSpec} {ruleSet ruleSet' : RuleSet} (hcompile : spec.compile = .ok ruleSet)
  (hcompile' : spec'.compile = .ok ruleSet') (htypes : spec'.factTypes = spec.factTypes)

include hcompile hcompile' htypes

theorem factTypes_of_compile : ruleSet'.factTypes = ruleSet.factTypes := by
  obtain ⟨types, _, hspecs, -, rfl⟩ := compile_eq_ok.mp hcompile
  obtain ⟨types', _, hspecs', -, rfl⟩ := compile_eq_ok.mp hcompile'
  rw [htypes, hspecs] at hspecs'
  exact (Checked.ok.inj hspecs').symm

theorem hosted_of_compile (extras : List RuleSpec) (hperm : spec.rules.Perm (extras ++ spec'.rules))
    (hkeeps : ∀ a ∈ ruleSet'.rules, ∀ b ∈ ruleSet'.rules, b.priority = a.priority →
      compare (a.among ruleSet.rules).order (b.among ruleSet.rules).order = compare a.order b.order) :
    Rule.Hosted ruleSet.rules (extras.map (·.compiled (Declarations.ofSpecs spec.factTypes)))
      ruleSet'.rules := by
  have hnames := (wellFormed_of_compile hcompile).names
  obtain ⟨hplaced, hcompiled⟩ := compiled_of_compile hcompile
  obtain ⟨hplaced', -⟩ := compiled_of_compile hcompile'
  refine ⟨hnames, (wellFormed_of_compile hcompile').orders, Rule.perm_among hnames ?_, hkeeps⟩
  have hextras : (extras.map (·.compiled (Declarations.ofSpecs spec.factTypes))).map (·.placed 0)
      = extras.map (·.compiled (Declarations.ofSpecs spec.factTypes)) := by
    rw [List.map_map]
    refine List.map_congr_left fun rule hrule => ?_
    have hok := hcompiled rule (hperm.mem_iff.mpr (List.mem_append_left _ hrule))
    rw [compileRule_placed, Checked.map_eq_ok] at hok
    obtain ⟨first, -, hfirst⟩ := hok
    rw [Function.comp_apply, ← hfirst]
    rfl
  rw [hplaced, List.map_append, hplaced', hextras, htypes, ← List.map_append]
  exact hperm.map _

theorem hosted_of_sublist (extras : List RuleSpec) (hperm : spec.rules.Perm (extras ++ spec'.rules))
    (hsublist : spec'.rules.Sublist spec.rules) :
    Rule.Hosted ruleSet.rules (extras.map (·.compiled (Declarations.ofSpecs spec.factTypes)))
      ruleSet'.rules := by
  have hwellFormed := wellFormed_of_compile hcompile
  have hplaced : (ruleSet'.rules.map (·.placed 0)).Sublist (ruleSet.rules.map (·.placed 0)) := by
    rw [(compiled_of_compile hcompile).1, (compiled_of_compile hcompile').1, htypes]
    exact hsublist.map _
  have horders := hwellFormed.orders.sublist (Rule.sublist_among hwellFormed.names hplaced)
  rw [List.pairwise_map] at horders
  exact hosted_of_compile hcompile hcompile' htypes extras hperm fun a ha b hb _ =>
    Rule.compare_order (wellFormed_of_compile hcompile').orders horders a ha b hb

end Hosted

theorem RuleSetSpec.WellFormed.of_subset {spec : RuleSetSpec} (h : spec.WellFormed)
    {rules : List RuleSpec} (hrules : rules ⊆ spec.rules) (hnames : (rules.map (·.name)).Nodup) :
    ({ spec with rules } : RuleSetSpec).WellFormed :=
  ⟨h.types, hnames, fun rule hrule => h.rules rule (hrules hrule)⟩

end ForwardChaining
