import ForwardChaining.Proofs.Network.Tame

/-!
This module contains what delivering a change does to the network, whether it fails or not. The network
stays sound, and the stages of a rule stay settled if no work for this rule is left undone.
-/

namespace ForwardChaining

namespace Network

/-- Another state of the same network: its rules and the filters of its memories are the same. -/
structure SameRules (net net' : Network) : Prop where
  ruleSet : net'.ruleSet = net.ruleSet
  rules : net'.memories.map (·.rule) = net.memories.map (·.rule)
  filters : net'.working.alphas.map (·.filter) = net.working.alphas.map (·.filter)

namespace SameRules

theorem forall_filters {net net' : Network} (h : net.SameRules net') {P : FactFilter → Prop}
    (hfilters : ∀ alpha ∈ net.working.alphas, P alpha.filter) :
    ∀ alpha ∈ net'.working.alphas, P alpha.filter := by
  rw [← List.forall_mem_map, h.filters, List.forall_mem_map]
  exact hfilters

theorem trans {net net' net'' : Network} (h : net.SameRules net') (h' : net'.SameRules net'') :
    net.SameRules net'' :=
  ⟨h'.ruleSet.trans h.ruleSet, h'.rules.trans h.rules, h'.filters.trans h.filters⟩

theorem of_keeps {net net' : Network} (h : net.Keeps net') : net.SameRules net' :=
  ⟨h.ruleSet, h.rules, by rw [h.working]⟩

theorem of_turned {f : Node → Node × Option Key} {keep : Token → Bool} {net net' : Network}
    (h : Turned f keep net net') : net.SameRules net' :=
  ⟨h.ruleSet, h.rules, h.filters⟩

end SameRules

/-! ### A fact comes -/

/-- The tasks that are left undone when a fact comes. -/
def leftByInsert (fact : Fact) (net : Network) : List Task :=
  let arrived := net.arrival fact
  unfinished fact.id (tasksOf (net.ruleSet.index.positionsOf fact.type) arrived.2) arrived.1

section Insert

variable {net : Network} (h : net.Sound) {fact : Fact} (hfresh : Unused fact.id net.working.facts)

include h hfresh

theorem sound_insert : (net.insert fact).1.Sound ∧ net.SameRules (net.insert fact).1
    ∧ (net.insert fact).1.working.facts = net.working.facts ++ [fact] := by
  obtain ⟨ha, heq⟩ := arrived h hfresh
  rw [heq]
  obtain ⟨hkeeps, hsound⟩ := sound_tasks (ha.sound h hfresh) fact.id (ha.suits h hfresh)
  refine ⟨hsound, (SameRules.of_turned ha.turned).trans (.of_keeps hkeeps), ?_⟩
  rw [hkeeps.working, ha.facts]

theorem exact_insert {name : String} (hexact : net.Exact name)
    (hintegral : ∀ rule ∈ net.ruleSet.rules, rule.name = name →
      ∀ condition ∈ rule.conditions, condition.Integral fact) :
    (net.insert fact).1.Exact name := by
  obtain ⟨ha, heq⟩ := arrived h hfresh
  rw [heq]
  obtain ⟨hkeeps, -⟩ := sound_tasks (ha.sound h hfresh) fact.id (ha.suits h hfresh)
  exact (ha.exact h hfresh hexact hintegral).keeps hkeeps

theorem settled_insert {name : String} (hsettled : net.Settled name fun _ _ => False)
    (hdone : ∀ task ∈ net.leftByInsert fact, task.rule ≠ name) :
    (net.insert fact).1.Settled name fun _ _ => False := by
  obtain ⟨ha, heq⟩ := arrived h hfresh
  rw [heq]
  cases hmemory : (net.arrival fact).1.memory? name with
  | none =>
    obtain ⟨hkeeps, -⟩ := sound_tasks (ha.sound h hfresh) fact.id (ha.suits h hfresh)
    intro memory' hmemory'
    obtain ⟨memory, hfound, -⟩ := hkeeps.nodes name memory' hmemory'
    rw [hmemory] at hfound
    cases hfound
  | some memory =>
    apply (settled_tasks (ha.sound h hfresh) (ha.suits h hfresh) hmemory
      (ha.settled h hfresh hsettled) hdone).mono
    rintro i token ⟨⟨found, hfound, hdecides⟩, hnone⟩
    rw [hmemory, Option.some.injEq] at hfound
    rw [← hfound] at hdecides
    exact hnone hdecides

end Insert

/-! ### A fact goes -/

/-- The tasks that are left undone when a fact goes. -/
def leftByRetract (fact : Fact) (net : Network) : List Task :=
  let departed := net.departure fact
  if Unused fact.id net.working.facts then tasksOf [] departed.2
  else unfinished fact.id (tasksOf [] departed.2) departed.1

section Retract

variable {net : Network} (h : net.Sound) {fact : Fact}
  (htype : ∀ other ∈ net.working.facts, other.id = fact.id → other.type = fact.type)

include h htype

/-- The network after a retraction: some tasks are done, or none of them because the fact is missing. -/
theorem keeps_retract : (net.departure fact).1.Keeps (net.retract fact).1
    ∧ (net.retract fact).1.Sound := by
  have hd := departed h htype
  rw [retract_eq h]
  split
  . exact ⟨.refl _, hd.sound h⟩
  . exact sound_tasks (hd.sound h) fact.id (hd.suits h)

theorem sound_retract : (net.retract fact).1.Sound ∧ net.SameRules (net.retract fact).1
    ∧ (net.retract fact).1.working.facts = without fact.id net.working.facts := by
  have hd := departed h htype
  obtain ⟨hkeeps, hsound⟩ := keeps_retract h htype
  refine ⟨hsound, (SameRules.of_turned hd.turned).trans (.of_keeps hkeeps), ?_⟩
  rw [hkeeps.working, hd.facts]

theorem exact_retract {name : String} (hexact : net.Exact name) :
    (net.retract fact).1.Exact name := by
  obtain ⟨hkeeps, -⟩ := keeps_retract h htype
  exact ((departed h htype).exact h hexact).keeps hkeeps

theorem settled_retract {name : String} (hsettled : net.Settled name fun _ _ => False)
    (hdone : ∀ task ∈ net.leftByRetract fact, task.rule ≠ name) :
    (net.retract fact).1.Settled name fun _ _ => False := by
  have hd := departed h htype
  have hdoubt := hd.settled h hsettled
  cases hmemory : (net.departure fact).1.memory? name with
  | none =>
    obtain ⟨hkeeps, -⟩ := keeps_retract h htype
    intro memory' hmemory'
    obtain ⟨memory, hfound, -⟩ := hkeeps.nodes name memory' hmemory'
    rw [hmemory] at hfound
    cases hfound
  | some memory =>
    have hmine : ∀ i token, (net.departure fact).1.InDoubt fact.id
        (tasksOf [] (net.departure fact).2) name i token →
          ∃ task ∈ tasksOf [] (net.departure fact).2, task.Decides fact.id
            (net.departure fact).1.working memory.rule (memory.stages.map (·.node)) i token := by
      rintro i token ⟨found, hfound, hdecides⟩
      rw [hmemory, Option.some.injEq] at hfound
      rw [hfound]
      exact hdecides
    rw [retract_eq h]
    unfold leftByRetract at hdone
    split at hdone
    . next hunused =>
      rw [if_pos hunused]
      apply hdoubt.mono
      intro i token hin
      obtain ⟨task, htask, hdecides⟩ := hmine i token hin
      apply hdone task htask
      rw [Task.rule_of_decides hdecides, name_of_memory? hmemory]
    . next hthere =>
      rw [if_neg hthere]
      apply (settled_tasks (hd.sound h) (hd.suits h) hmemory hdoubt hdone).mono
      rintro i token ⟨hin, hnone⟩
      exact hnone (hmine i token hin)

end Retract

/-! ### Changes -/

/-- No condition of the rule refers to the type. -/
def Ignores (net : Network) (name type : String) : Prop :=
  ∀ rule ∈ net.ruleSet.rules, rule.name = name →
    ∀ condition ∈ rule.conditions, ¬ condition.RefersTo type

/--
No work for the rule is left undone: none of its tasks is, and if an update fails before the new snapshot
has come, the rule does not take facts of the type.
-/
def Finishes (net : Network) (name : String) : Change → Prop
  | .inserted fact => ∀ task ∈ net.leftByInsert fact, task.rule ≠ name
  | .retracted fact => ∀ task ∈ net.leftByRetract fact, task.rule ≠ name
  | .updated fact previous => (∀ task ∈ net.leftByRetract previous, task.rule ≠ name)
    ∧ match net.retract previous with
      | (net, none) => ∀ task ∈ net.leftByInsert fact, task.rule ≠ name
      | (_, some _) => net.Ignores name fact.type

/-- What is known of an update: the old snapshot has gone, and if this did not fail, the new one comes. -/
structure Replaced (net : Network) (fact previous : Fact) (net' : Network) : Prop where
  sound : net'.Sound
  same : net.SameRules net'
  facts : net'.working.facts = without previous.id net.working.facts
  fresh : Unused fact.id net'.working.facts

theorem onChange_updated {net : Network} (h : net.Sound) {fact previous : Fact}
    (hadmissible : (Change.updated fact previous).Admissible net.working.facts) :
    ∃ net', Replaced net fact previous net'
      ∧ ((net.retract previous = (net', none)
          ∧ net.onChange (.updated fact previous) = net'.insert fact)
        ∨ ∃ fault, net.retract previous = (net', some fault)
          ∧ net.onChange (.updated fact previous) = (net', some fault)) := by
  obtain ⟨hid, -, htype⟩ := hadmissible
  obtain ⟨hsound, hsame, hfacts⟩ := sound_retract h htype
  simp only [onChange]
  cases hretract : net.retract previous with
  | mk net' fault =>
    rw [hretract] at hsound hsame hfacts
    refine ⟨net', ⟨hsound, hsame, hfacts, ?_⟩, ?_⟩
    . intro other hother
      rw [show net'.working.facts = _ from hfacts] at hother
      simp only [without, List.mem_filter, decide_eq_true_eq] at hother
      rw [hid]
      exact hother.2
    . cases fault with
      | none => exact .inl ⟨rfl, rfl⟩
      | some fault => exact .inr ⟨fault, rfl, rfl⟩

section OnChange

variable {net : Network} (h : net.Sound) {change : Change}
  (hadmissible : change.Admissible net.working.facts)

include h hadmissible

theorem sound_onChange : (net.onChange change).1.Sound
    ∧ net.SameRules (net.onChange change).1 := by
  cases change with
  | inserted fact =>
    obtain ⟨hsound, hsame, -⟩ := sound_insert h hadmissible
    exact ⟨hsound, hsame⟩
  | retracted fact =>
    obtain ⟨hsound, hsame, -⟩ := sound_retract h hadmissible
    exact ⟨hsound, hsame⟩
  | updated fact previous =>
    obtain ⟨net', hreplaced, ⟨-, heq⟩ | ⟨fault, -, heq⟩⟩ := onChange_updated h hadmissible
    . rw [heq]
      obtain ⟨hsound, hsame, -⟩ := sound_insert hreplaced.sound hreplaced.fresh
      exact ⟨hsound, hreplaced.same.trans hsame⟩
    . rw [heq]
      exact ⟨hreplaced.sound, hreplaced.same⟩

theorem facts_onChange (hok : (net.onChange change).2 = none) :
    (net.onChange change).1.working.facts = change.applied net.working.facts := by
  cases change with
  | inserted fact => exact (sound_insert h hadmissible).2.2
  | retracted fact => exact (sound_retract h hadmissible).2.2
  | updated fact previous =>
    obtain ⟨net', hreplaced, ⟨-, heq⟩ | ⟨fault, -, heq⟩⟩ := onChange_updated h hadmissible
    . rw [heq, (sound_insert hreplaced.sound hreplaced.fresh).2.2, hreplaced.facts]
      rfl
    . rw [heq] at hok
      cases hok

theorem relevant_onChange {name : String} (hfinishes : net.Finishes name change)
    {relevant : Fact → Bool}
    (hrelevant : ∀ fact, net.Ignores name fact.type → relevant fact = false) :
    (net.onChange change).1.working.facts.filter relevant
      = (change.applied net.working.facts).filter relevant := by
  cases change with
  | inserted fact => rw [onChange, (sound_insert h hadmissible).2.2, Change.applied]
  | retracted fact => rw [onChange, (sound_retract h hadmissible).2.2, Change.applied]
  | updated fact previous =>
    obtain ⟨net', hreplaced, ⟨-, heq⟩ | ⟨fault, hretract, heq⟩⟩ := onChange_updated h hadmissible
    . rw [heq, (sound_insert hreplaced.sound hreplaced.fresh).2.2, hreplaced.facts, Change.applied]
    . obtain ⟨-, hfinishes⟩ := hfinishes
      rw [hretract] at hfinishes
      rw [heq, hreplaced.facts, Change.applied, List.filter_append]
      simp [hrelevant fact hfinishes]

theorem settled_onChange {name : String} (hsettled : net.Settled name fun _ _ => False)
    (hfinishes : net.Finishes name change) :
    (net.onChange change).1.Settled name fun _ _ => False := by
  cases change with
  | inserted fact => exact settled_insert h hadmissible hsettled hfinishes
  | retracted fact => exact settled_retract h hadmissible hsettled hfinishes
  | updated fact previous =>
    obtain ⟨net', hreplaced, ⟨hretract, heq⟩ | ⟨fault, hretract, heq⟩⟩ :=
      onChange_updated h hadmissible
    . have hsettled' := settled_retract h hadmissible.2.2 hsettled hfinishes.1
      obtain ⟨-, hinsert⟩ := hfinishes
      rw [hretract] at hsettled' hinsert
      rw [heq]
      exact settled_insert hreplaced.sound hreplaced.fresh hsettled' hinsert
    . have hsettled' := settled_retract h hadmissible.2.2 hsettled hfinishes.1
      rw [hretract] at hsettled'
      rw [heq]
      exact hsettled'

theorem exact_onChange {name : String} (hexact : net.Exact name)
    (hintegral : ∀ fact ∈ change.brings, ∀ rule ∈ net.ruleSet.rules, rule.name = name →
      ∀ condition ∈ rule.conditions, condition.Integral fact) :
    (net.onChange change).1.Exact name := by
  cases change with
  | inserted fact => exact exact_insert h hadmissible hexact (hintegral fact rfl)
  | retracted fact => exact exact_retract h hadmissible hexact
  | updated fact previous =>
    have hexact' := exact_retract h hadmissible.2.2 hexact
    obtain ⟨net', hreplaced, ⟨hretract, heq⟩ | ⟨fault, hretract, heq⟩⟩ :=
      onChange_updated h hadmissible
    . rw [hretract] at hexact'
      rw [heq]
      apply exact_insert hreplaced.sound hreplaced.fresh hexact'
      rw [hreplaced.same.ruleSet]
      exact hintegral fact rfl
    . rw [hretract] at hexact'
      rw [heq]
      exact hexact'

end OnChange

/-! ### Changes that cannot fail -/

section Tame

variable {net : Network} (h : net.Sound) (htame : ∀ name, net.Tame name)

include h htame

theorem tame_insert {fact : Fact} (hfresh : Unused fact.id net.working.facts) (hflat : fact.Flat)
    (hintegral : ∀ rule ∈ net.ruleSet.rules, ∀ condition ∈ rule.conditions,
      condition.Integral fact) :
    (net.insert fact).2 = none ∧ net.leftByInsert fact = [] := by
  obtain ⟨ha, heq⟩ := arrived h hfresh
  rw [heq]
  apply tasks_tame (ha.sound h hfresh) fact.id (ha.suits h hfresh)
  intro name
  refine ⟨?_, ?_, ?_⟩
  . rw [ha.facts, List.forall_mem_append, List.forall_mem_singleton]
    exact ⟨(htame name).flat, hflat⟩
  . exact ha.exact h hfresh (htame name).exact fun rule hrule _ => hintegral rule hrule
  . rw [ha.turned.ruleSet]
    exact (htame name).scope

theorem tame_retract {fact : Fact} (hthere : ∃ other ∈ net.working.facts, other.id = fact.id)
    (htype : ∀ other ∈ net.working.facts, other.id = fact.id → other.type = fact.type) :
    (net.retract fact).2 = none ∧ net.leftByRetract fact = [] := by
  have hd := departed h htype
  have hnot : ¬ Unused fact.id net.working.facts := by
    obtain ⟨other, hother, hid⟩ := hthere
    exact fun hunused => hunused other hother hid
  rw [retract_eq h, leftByRetract, if_neg hnot, if_neg hnot]
  apply tasks_tame (hd.sound h) fact.id (hd.suits h)
  intro name
  refine ⟨?_, hd.exact h (htame name).exact, ?_⟩
  . rw [hd.facts]
    intro other hother
    exact (htame name).flat other (List.mem_of_mem_filter hother)
  . rw [hd.turned.ruleSet]
    exact (htame name).scope

theorem tame_onChange {change : Change} (hadmissible : change.Admissible net.working.facts)
    (htakes : ∀ fact ∈ change.takes, ∃ other ∈ net.working.facts, other.id = fact.id)
    (hflat : ∀ fact ∈ change.brings, fact.Flat)
    (hintegral : ∀ fact ∈ change.brings, ∀ rule ∈ net.ruleSet.rules,
      ∀ condition ∈ rule.conditions, condition.Integral fact) :
    (net.onChange change).2 = none ∧ ∀ name, net.Finishes name change := by
  cases change with
  | inserted fact =>
    obtain ⟨hok, hleft⟩ := tame_insert h htame hadmissible (hflat fact rfl) (hintegral fact rfl)
    refine ⟨hok, ?_⟩
    simp [Finishes, hleft]
  | retracted fact =>
    obtain ⟨hok, hleft⟩ := tame_retract h htame (htakes fact rfl) hadmissible
    refine ⟨hok, ?_⟩
    simp [Finishes, hleft]
  | updated fact previous =>
    obtain ⟨hok, hleft⟩ := tame_retract h htame (htakes previous rfl) hadmissible.2.2
    obtain ⟨net', hreplaced, ⟨hretract, heq⟩ | ⟨fault, hretract, -⟩⟩ :=
      onChange_updated h hadmissible
    . have htame' : ∀ name, net'.Tame name := by
        intro name
        have hexact := exact_retract h hadmissible.2.2 (htame name).exact
        rw [hretract] at hexact
        refine ⟨?_, hexact, ?_⟩
        . rw [hreplaced.facts]
          intro other hother
          exact (htame name).flat other (List.mem_of_mem_filter hother)
        . rw [hreplaced.same.ruleSet]
          exact (htame name).scope
      obtain ⟨hok', hleft'⟩ := tame_insert hreplaced.sound htame' hreplaced.fresh (hflat fact rfl)
        (by rw [hreplaced.same.ruleSet]; exact hintegral fact rfl)
      rw [heq]
      refine ⟨hok', ?_⟩
      simp [Finishes, hleft, hretract, hleft']
    . rw [hretract] at hok
      cases hok

end Tame
end Network
end ForwardChaining
