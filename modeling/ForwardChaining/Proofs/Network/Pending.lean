import ForwardChaining.Proofs.Network.Schedule

/-!
This module contains that the agenda stays in step with the matches: while changes are followed, when the
network is built, and when activations are selected. So what the network counts as pending is what stands
in the agenda.
-/

namespace ForwardChaining

namespace Network

variable {net net' : Network} {todo : String → Token → Prop}

theorem live_of_matched (h : net.Sound) {name : String} {rule : Rule} {tokens : List Token}
    (hmatched : net.matched name = some (rule, tokens)) : ∀ token ∈ tokens, net.working.Live token := by
  obtain ⟨memory, hmemory, -, rfl⟩ := exists_of_matched hmatched
  rw [Stage.complete_eq_final]
  exact (h.grounded name memory hmemory).live h.alphas (by simpa using WorkingMemory.live_nil)

/-! ### A fact comes -/

theorem matched_turned {f : Node → Node × Option Key} {keep : Token → Bool}
    (h : Turned f keep net net') (hnil : keep [] = true) (name : String) :
    net'.matched name = (net.matched name).map fun found => (found.1, found.2.filter keep) := by
  rw [matched, matched, h.memory?]
  cases net.memory? name with
  | none => rfl
  | some memory =>
    simp only [Option.map_some, Stage.complete_eq_getLast?, List.getLast?_map]
    cases memory.stages.getLast? with
    | none => simp [hnil]
    | some stage => rfl

theorem scheduled_arrived (h : net.Scheduled todo) (hsound : net.Sound) {fact : Fact}
    {changed : List Disturbance} (ha : Arrived fact net net' changed) : net'.Scheduled todo := by
  apply h.frame ha.agenda ha.serial ha.fired
  . intro name
    rw [matched_turned ha.turned rfl]
    cases net.matched name with
    | none => rfl
    | some found => rw [Option.map_some, List.filter_eq_self.mpr fun _ _ => rfl]
  . intro name rule tokens hmatched token htoken
    apply boundFacts_congr
    intro id hid
    obtain ⟨old, hold, rfl⟩ := live_of_matched hsound hmatched token htoken id hid
    rw [WorkingMemory.find_eq hsound.distinct hold]
    apply WorkingMemory.find_eq ha.turned.distinct
    rw [ha.facts]
    exact List.mem_append_left _ hold

theorem scheduled_insert (h : net.Scheduled todo) (hsound : net.Sound) {fact : Fact}
    (hfresh : Unused fact.id net.working.facts) : (net.insert fact).1.Scheduled todo := by
  obtain ⟨ha, heq⟩ := arrived hsound hfresh
  rw [heq]
  exact scheduled_tasks (scheduled_arrived h hsound ha) (ha.sound hsound hfresh) fact.id
    (ha.suits hsound hfresh)

/-! ### A fact goes -/

theorem stage?_drop {name : String} {position : Nat} {stage : Stage}
    (h : net.stage? name position = some stage) (rule : String) (start : Nat)
    (doomed : Token → Bool) :
    ∃ stage', (net.drop rule start doomed).stage? name position = some stage' := by
  obtain ⟨memory, hmemory, hat⟩ := exists_of_stage? h
  have hlength : (Stage.drop doomed start memory.stages).length = memory.stages.length := by
    rw [← List.length_map (f := Stage.node), Stage.map_node_drop, List.length_map]
  have hposition := (List.getElem?_eq_some_iff.mp hat).1
  have hmemory' := memory?_drop net rule start doomed name
  rw [hmemory, Option.map_some] at hmemory'
  rw [stage?_eq hmemory']
  split
  . exact ⟨_, List.getElem?_eq_getElem (hlength ▸ hposition)⟩
  . exact ⟨stage, hat⟩

theorem scheduled_dropEach (h : net.Scheduled todo) {places : List (String × Nat)}
    (hthere : ∀ place ∈ places, ∃ stage, net.stage? place.1 place.2 = some stage)
    (doomed : Token → Bool) : (net.dropEach doomed places).Scheduled todo := by
  induction places generalizing net with
  | nil => exact h
  | cons place places ih =>
    obtain ⟨stage, hstage⟩ := hthere place (by simp)
    apply ih (scheduled_drop h hstage doomed)
    intro other hother
    obtain ⟨stage', hstage'⟩ := hthere other (by simp [hother])
    exact stage?_drop hstage' place.1 place.2 doomed

theorem find_without {w : WorkingMemory} {id other : Int} (hne : other ≠ id) :
    ({ w with facts := without id w.facts } : WorkingMemory).find other = w.find other := by
  have hfind : (without id w.facts).find? (·.id = other) = w.facts.find? (·.id = other) := by
    rw [without, List.find?_filter]
    congr
    funext fact
    by_cases hid : fact.id = other
    . simp [hid, hne]
    . simp [hid]
  unfold WorkingMemory.find
  rw [hfind]

theorem matched_touched {f : Node → Node × Option Key} {positions : List (String × Nat)}
    {changed : List Disturbance} (h : Touched f positions net net' changed) (name : String) :
    net'.matched name = net.matched name := by
  rw [matched, matched, h.memory?]
  cases net.memory? name with
  | none => rfl
  | some memory =>
    simp only [Option.map_some]
    rw [Stage.complete_congr]
    apply List.ext_getElem?
    intro i
    simp only [List.getElem?_map, List.getElem?_mapIdx, Option.map_map]
    congr 1
    funext stage
    rw [Function.comp_apply]
    split <;> rfl

theorem Scheduled.forgotten (h : net.Scheduled todo) {id : Int} (hf : Forgotten id net net') :
    net'.Scheduled todo := by
  apply h.frame hf.agenda hf.serial hf.fired
  . intro name
    rw [matched, hf.memory?, matched]
  . intro name rule tokens _ token _
    apply boundFacts_congr
    intro id _
    unfold WorkingMemory.find
    rw [hf.facts]

theorem Scheduled.touched (h : net.Scheduled todo) {f : Node → Node × Option Key}
    {positions : List (String × Nat)} {changed : List Disturbance}
    (ht : Touched f positions net net' changed) : net'.Scheduled todo := by
  apply h.frame ht.agenda ht.serial ht.fired (matched_touched ht)
  intro name rule tokens _ token _
  rw [boundFacts, ht.working, boundFacts]

theorem Scheduled.without (h : net.Scheduled todo) {id : Int}
    (hunbound : ∀ name rule tokens, net.matched name = some (rule, tokens) → ∀ token ∈ tokens,
      id ∉ token) :
    ({ net with working.facts := without id net.working.facts } : Network).Scheduled todo := by
  refine h.frame rfl rfl rfl (fun _ => rfl) ?_
  intro name rule tokens hmatched token htoken
  apply boundFacts_congr
  intro other hother
  apply find_without
  rintro rfl
  exact hunbound name rule tokens hmatched token htoken hother

theorem scheduled_departure (h : net.Scheduled todo) (hsound : net.Sound) {fact : Fact}
    (htype : ∀ other ∈ net.working.facts, other.id = fact.id → other.type = fact.type) :
    (net.departure fact).1.Scheduled todo := by
  have hunbound : ∀ name rule tokens, (net.departure fact).1.matched name = some (rule, tokens) →
      ∀ token ∈ tokens, fact.id ∉ token := by
    intro name rule tokens hmatched token htoken hmem
    rw [matched_turned (departed hsound htype).turned (by simp), Option.map_eq_some_iff] at hmatched
    obtain ⟨found, -, heq⟩ := hmatched
    rw [← (Prod.mk.inj heq).2, List.mem_filter] at htoken
    simp [hmem] at htoken
  have htouched := touched_uncount fact.id
    { net with working.alphas := net.working.alphas.map (·.remove fact.id) }
    (hsound.nodup_positions fact.type)
  have huncounted := (h.forgotten (forgotten net fact.id)).touched htouched
  unfold departure at hunbound ⊢
  dsimp only at hunbound ⊢
  generalize uncount fact.id (net.ruleSet.index.positionsOf fact.type)
    { net with working.alphas := net.working.alphas.map (·.remove fact.id) } = found
    at hunbound htouched huncounted ⊢
  obtain ⟨uncounted, changed⟩ := found
  have hdropped := scheduled_dropEach huncounted (fun place hplace =>
    let ⟨stage, hstage, _⟩ :=
      ((mem_firstPatterns (hsound.ascending_positions fact.type)).mp hplace).2.1
    ⟨stage, hstage⟩) (·.contains fact.id)
  obtain ⟨-, hworking, -, -⟩ := uncounted.frame_dropEach (·.contains fact.id)
    (uncounted.firstPatterns (net.ruleSet.index.positionsOf fact.type))
  have hfacts : (uncounted.dropEach (·.contains fact.id)
      (uncounted.firstPatterns (net.ruleSet.index.positionsOf fact.type))).working.facts
        = net.working.facts := by
    rw [hworking, htouched.working]
  rw [← hfacts]
  exact hdropped.without hunbound

theorem scheduled_retract (h : net.Scheduled todo) (hsound : net.Sound) {fact : Fact}
    (htype : ∀ other ∈ net.working.facts, other.id = fact.id → other.type = fact.type) :
    (net.retract fact).1.Scheduled todo := by
  have hd := departed hsound htype
  have hdeparted := scheduled_departure h hsound htype
  rw [retract_eq hsound]
  split
  . exact hdeparted
  . exact scheduled_tasks hdeparted (hd.sound hsound) fact.id (hd.suits hsound)

theorem scheduled_onChange (h : net.Scheduled todo) (hsound : net.Sound) {change : Change}
    (hadmissible : change.Admissible net.working.facts) :
    (net.onChange change).1.Scheduled todo := by
  cases change with
  | inserted fact => exact scheduled_insert h hsound hadmissible
  | retracted fact => exact scheduled_retract h hsound hadmissible
  | updated fact previous =>
    have hretracted := scheduled_retract h hsound hadmissible.2.2
    obtain ⟨net', hreplaced, ⟨hretract, heq⟩ | ⟨fault, hretract, heq⟩⟩ :=
      onChange_updated hsound hadmissible
    . rw [hretract] at hretracted
      rw [heq]
      exact scheduled_insert hretracted hreplaced.sound hreplaced.fresh
    . rw [hretract] at hretracted
      rw [heq]
      exact hretracted

section OnChange

variable (h : net.Sound) {change : Change} (hadmissible : change.Admissible net.working.facts)

include h

theorem fired_insert {fact : Fact} (hfresh : Unused fact.id net.working.facts) :
    (net.insert fact).1.fired = net.fired := by
  obtain ⟨ha, heq⟩ := arrived h hfresh
  rw [heq]
  exact (sound_tasks (ha.sound h hfresh) fact.id (ha.suits h hfresh)).1.fired.trans ha.fired

theorem fired_retract {fact : Fact}
    (htype : ∀ other ∈ net.working.facts, other.id = fact.id → other.type = fact.type) :
    (net.retract fact).1.fired = net.fired :=
  (keeps_retract h htype).1.fired.trans (departed h htype).fired

include hadmissible

theorem fired_onChange : (net.onChange change).1.fired = net.fired := by
  cases change with
  | inserted fact => exact fired_insert h hadmissible
  | retracted fact => exact fired_retract h hadmissible
  | updated fact previous =>
    have hretract := fired_retract h hadmissible.2.2
    obtain ⟨net', hreplaced, ⟨heq, hchange⟩ | ⟨fault, heq, hchange⟩⟩ := onChange_updated h hadmissible
    . rw [heq] at hretract
      rw [hchange, fired_insert hreplaced.sound hreplaced.fresh, hretract]
    . rw [heq] at hretract
      rw [hchange, hretract]

theorem facts_onChange_cases :
    (net.onChange change).1.working.facts = change.applied net.working.facts
      ∨ ∃ fact previous fault, change = .updated fact previous
        ∧ (net.retract previous).2 = some fault ∧ (net.onChange change).2 = some fault
        ∧ (net.onChange change).1.working.facts = without previous.id net.working.facts := by
  cases change with
  | inserted fact => exact .inl (sound_insert h hadmissible).2.2
  | retracted fact => exact .inl (sound_retract h hadmissible).2.2
  | updated fact previous =>
    obtain ⟨net', hreplaced, ⟨-, hchange⟩ | ⟨fault, heq, hchange⟩⟩ := onChange_updated h hadmissible
    . left
      rw [hchange, (sound_insert hreplaced.sound hreplaced.fresh).2.2, hreplaced.facts]
      rfl
    . right
      exact ⟨fact, previous, fault, rfl, by rw [heq], by rw [hchange], by rw [hchange, hreplaced.facts]⟩

theorem known_onChange {seen : List Fact} (hknown : net.working.facts ⊆ seen) :
    (net.onChange change).1.working.facts ⊆ change.applied seen := by
  have hwithout : ∀ id, without id net.working.facts ⊆ without id seen :=
    fun id => List.filter_subset _ hknown
  rcases facts_onChange_cases h hadmissible with heq | ⟨fact, previous, fault, rfl, -, -, heq⟩
  . rw [heq]
    cases change with
    | inserted fact =>
      exact List.append_subset.mpr ⟨List.subset_append_of_subset_left _ hknown,
        List.subset_append_right _ _⟩
    | updated fact previous =>
      exact List.append_subset.mpr ⟨List.subset_append_of_subset_left _ (hwithout previous.id),
        List.subset_append_right _ _⟩
    | retracted fact => exact hwithout fact.id
  . rw [heq]
    exact List.subset_append_of_subset_left _ (hwithout previous.id)

end OnChange

/-! ### Construction -/

theorem scheduled_blank (ruleSet : RuleSet) :
    (blank ruleSet).Scheduled fun name _ => name ∈ ruleSet.rules.map (·.name) := by
  refine ⟨Agenda.orderly_empty, ?_, ?_⟩
  . intro name token a ha
    cases ha
  . intro name rule tokens hmatched token _ hclear
    obtain ⟨memory, hmemory, rfl, -⟩ := exists_of_matched hmatched
    obtain ⟨-, hrules, -⟩ := shared_memoriesOf [] ruleSet.rules
    apply absurd _ hclear
    rw [← hrules, List.map_map]
    exact List.mem_map.mpr ⟨memory, List.mem_of_find?_eq_some hmemory, name_of_memory? hmemory⟩

theorem scheduled_start (h : net.Scheduled todo) (hsound : net.Sound) {rule : Rule}
    {memory : RuleMemory} (hmemory : net.memory? rule.name = some memory) (hrule : memory.rule = rule)
    (hempty : ∀ stage ∈ memory.stages, stage.tokens = []) :
    (start rule net).1.Scheduled fun name token => todo name token ∧ name ≠ rule.name := by
  subst hrule
  have hmatched := matched_eq hmemory
  -- A rule without conditions matches at once. Any other matches nothing before its first stage advances.
  cases hstages : memory.stages with
  | nil =>
    rw [start_eq_activate hmemory hstages]
    rw [hstages] at hmatched
    have hnothing : net.boundFacts [] = .ok [] := rfl
    apply (scheduled_activate h hmatched (List.mem_singleton.mpr rfl) hnothing).narrow
    rintro name rule' tokens hfound token htoken ⟨hin, hnot⟩
    refine ⟨hin, ?_⟩
    rintro rfl
    rw [matched_activate, hmatched, Option.some.injEq, Prod.mk.injEq] at hfound
    rw [← hfound.2] at htoken
    exact hnot ⟨rfl, List.mem_singleton.mp htoken⟩
  | cons stage stages =>
    have hnone : Stage.complete memory.stages = [] := by
      rw [hstages, Stage.complete_eq_getLast?, List.getLast?_map,
        List.getLast?_eq_some_getLast (List.cons_ne_nil _ _), Option.map_some, Option.getD_some]
      apply hempty
      rw [hstages]
      exact List.getLast_mem _
    have hnarrow : net.Scheduled fun name token => todo name token ∧ name ≠ memory.rule.name := by
      apply h.narrow
      intro name rule' tokens hfound token htoken hin
      refine ⟨hin, ?_⟩
      rintro rfl
      rw [hmatched, hnone, Option.some.injEq, Prod.mk.injEq] at hfound
      rw [← hfound.2] at htoken
      cases htoken
    cases hok : (stage.node.advance net.working memory.rule.vars []).outcome with
    | error fault =>
      unfold start
      rw [stage?_eq hmemory, hstages]
      simp only [List.getElem?_cons_zero, hok]
      exact hnarrow.record _
    | ok tokens =>
      have hstage : memory.stages[0]? = some stage := by
        rw [hstages]
        rfl
      have hrecord :=
        reaches_record net (stage.node.advance net.working memory.rule.vars []).log hmemory
      have hstarted := grounded_started hsound hmemory hstage hok
      rw [start_eq_extend hmemory hstages hok]
      exact scheduled_extend (hnarrow.record _)
        (hsound.reaches hmemory hrecord rfl (hsound.grounded _ memory hmemory))
        (hrecord.memory?_self hmemory) hstarted

theorem scheduled_starts (h : net.Sound) (htame : ∀ name, net.Tame name) {rules : List Rule}
    (hnames : (rules.map (·.name)).Nodup)
    (hrules : ∀ rule ∈ rules, ∃ memory, net.memory? rule.name = some memory ∧ memory.rule = rule
      ∧ ∀ stage ∈ memory.stages, stage.tokens = [])
    (hawaited : ∀ rule ∈ rules, net.Settled rule.name (net.Awaited rule.name))
    (hscheduled : net.Scheduled fun name _ => name ∈ rules.map (·.name)) :
    (Update.each start rules net).1.Scheduled fun _ _ => False := by
  induction rules generalizing net with
  | nil => exact hscheduled.mono fun name token hin => by cases hin
  | cons rule rules ih =>
    rw [List.map_cons, List.nodup_cons] at hnames
    obtain ⟨memory, hmemory, hrule, hempty⟩ := hrules rule (by simp)
    have hnext := scheduled_start hscheduled h hmemory hrule hempty
    obtain ⟨hok, hkeeps, hsound, hother, -⟩ :=
      settled_start h hmemory hrule (htame rule.name) (hawaited rule (by simp))
    simp only [Update.each, Update.andThen]
    cases hstart : start rule net with
    | mk net' fault =>
    rw [hstart] at hnext hok hkeeps hsound hother
    simp only at hnext hok hkeeps hsound hother
    subst hok
    have hne : ∀ other ∈ rules, other.name ≠ rule.name := by
      intro other hmem heq
      exact hnames.1 (heq ▸ List.mem_map.mpr ⟨other, hmem, rfl⟩)
    apply ih hsound (fun name => (htame name).keeps hkeeps) hnames.2
    . intro other hmem
      rw [hother other.name (hne other hmem)]
      exact hrules other (by simp [hmem])
    . intro other hmem
      exact awaited_of_memory? hkeeps.working (hother other.name (hne other hmem))
        (hawaited other (by simp [hmem]))
    . apply hnext.mono
      rintro name token ⟨hin, hnot⟩
      rcases List.mem_cons.mp hin with rfl | hin
      . exact absurd rfl hnot
      . exact hin

theorem scheduled_ofRuleSet {ruleSet : RuleSet} (h : ruleSet.WellFormed) :
    (ofRuleSet ruleSet).1.Scheduled fun _ _ => False := by
  rw [ofRuleSet_eq]
  obtain ⟨-, hrules, -⟩ := shared_memoriesOf [] ruleSet.rules
  apply scheduled_starts (sound_blank h) (tame_blank h) h.names _
    (fun rule _ => awaited_blank ruleSet rule.name) (scheduled_blank ruleSet)
  intro rule hrule
  rw [← hrules] at hrule
  obtain ⟨memory, hmemory, rfl⟩ := List.mem_map.mp hrule
  have hfound := memory?_of_mem (sound_blank h) hmemory
  exact ⟨memory, hfound, rfl, fun stage hstage => ((ready_of_blank hfound).fresh stage hstage).2⟩

/-! ### Selection -/

theorem Awaits.unique {rule : Rule} {token : Token} {facts facts' : List Fact}
    (h : net.Awaits rule token facts) (h' : net.Awaits rule token facts') : facts' = facts := by
  have heq := h'.1
  rw [h.1, Except.ok.injEq] at heq
  exact heq.symm

theorem scheduled_idle (h : net.Scheduled todo) {agenda : Agenda}
    (hselect : net.agenda.select = (agenda, none)) : ({ net with agenda } : Network).Scheduled todo := by
  have hselects := h.orderly.select
  rw [hselect] at hselects
  cases hselects with
  | idle _ hnone hentries horderly =>
    refine ⟨horderly, ?_, ?_⟩
    . intro name token a ha
      rw [hentries] at ha
      cases ha
    . intro name rule tokens hmatched token htoken hclear facts hawaits
      obtain ⟨a, ha⟩ := h.offered name rule tokens hmatched token htoken hclear facts hawaits
      rw [hnone] at ha
      cases ha

/-- A selected activation is a complete match that has not fired, with its facts as they are. -/
structure Selected (net : Network) (a : Activation) (net' : Network) : Prop where
  found : net.agenda.find? a.key = some a
  least : ∀ key b, net.agenda.find? key = some b → (a.sortKey.compare b.sortKey).isLE = true
  due : ∃ tokens facts, net.matched a.rule.name = some (a.rule, tokens) ∧ a.token ∈ tokens
    ∧ net.Awaits a.rule a.token facts ∧ a.Binds a.rule a.token facts
  new : refractionKey a.rule a.token a.versions ∉ net.fired
  fired : net'.fired = refractionKey a.rule a.token a.versions :: net.fired
  ruleSet : net'.ruleSet = net.ruleSet
  working : net'.working = net.working
  memories : net'.memories = net.memories

theorem Selected.matched {a : Activation} (h : net.Selected a net') : ∃ tokens,
    net'.matched a.rule.name = some (a.rule, tokens) ∧ a.token ∈ tokens := by
  obtain ⟨tokens, facts, hmatched, htoken, -⟩ := h.due
  refine ⟨tokens, ?_, htoken⟩
  rw [← hmatched, Network.matched, Network.matched, memory?, memory?, h.memories]

theorem markFired_eq (net : Network) {a : Activation}
    (h : refractionKey a.rule a.token a.versions ∉ net.fired) :
    net.markFired a = { net with fired := refractionKey a.rule a.token a.versions :: net.fired } := by
  unfold markFired
  dsimp only
  rw [if_neg (by rw [List.contains_iff_mem]; exact h)]

theorem selected_of_select (h : net.Scheduled todo) {agenda : Agenda} {a : Activation}
    (hselect : net.agenda.select = (agenda, some a)) :
    net.Selected a (({ net with agenda } : Network).markFired a)
      ∧ (({ net with agenda } : Network).markFired a).Scheduled todo := by
  have hselects := h.orderly.select
  rw [hselect] at hselects
  cases hselects with
  | next _ _ hpending hleast hentries horderly =>
    obtain ⟨rule, tokens, facts, hmatched, htoken, hawaits, hbinds⟩ :=
      h.due a.rule.name a.token a hpending
    obtain rfl : a.rule = rule := hbinds.rule
    have hnew : refractionKey a.rule a.token a.versions ∉ net.fired := by
      rw [hbinds.versions]
      exact hawaits.2
    -- What waits under the key of the selection is what was selected.
    have hsame : ∀ {name rule' tokens'}, net.matched name = some (rule', tokens') →
        ∀ {token facts'}, (name, token) = a.key → net.Awaits rule' token facts' →
          refractionKey rule' token (facts'.map (·.version))
            = refractionKey a.rule a.token a.versions := by
      intro name rule' tokens' hfound token facts' hkey hdue
      obtain ⟨rfl, rfl⟩ := Prod.mk.inj hkey
      rw [hmatched, Option.some.injEq, Prod.mk.injEq] at hfound
      rw [← hfound.1] at hdue ⊢
      rw [hawaits.unique hdue, hbinds.versions]
    rw [markFired_eq { net with agenda } hnew]
    refine ⟨⟨hpending, hleast, ⟨tokens, facts, hmatched, htoken, hawaits, hbinds⟩, hnew, rfl, rfl, rfl,
      rfl⟩, horderly, ?_, ?_⟩
    . intro name token b hb
      rw [hentries] at hb
      split at hb
      . cases hb
      . next hkey =>
        obtain ⟨rule', tokens', facts', hfound, htoken', ⟨hfacts', hnew'⟩, hbinds'⟩ :=
          h.due name token b hb
        refine ⟨rule', tokens', facts', hfound, htoken', ⟨hfacts', ?_⟩, hbinds'⟩
        rw [List.mem_cons, not_or]
        refine ⟨?_, hnew'⟩
        intro heq
        simp only [refractionKey, RefractionKey.mk.injEq] at heq
        apply hkey
        rw [Activation.key, ← heq.1, ← heq.2.1, name_of_matched hfound]
    . intro name rule' tokens' hfound token htoken' hclear facts' hawaits'
      obtain ⟨hfacts', hnew'⟩ := hawaits'
      rw [List.mem_cons, not_or] at hnew'
      have hdue : net.Awaits rule' token facts' := ⟨hfacts', hnew'.2⟩
      rw [hentries, if_neg]
      . exact h.offered name rule' tokens' hfound token htoken' hclear facts' hdue
      . intro hkey
        exact hnew'.1 (hsame hfound hkey hdue)

/-! ### What is pending -/

theorem pendingOf_ok {rule : Rule} {tokens : List Token} (hdistinct : Distinct net.working.facts)
    (hlive : ∀ token ∈ tokens, net.working.Live token) :
    ∃ found, net.pendingOf rule tokens = .ok found ∧ ∀ name token, (name, token) ∈ found
      ↔ name = rule.name ∧ token ∈ tokens ∧ ∃ facts, net.Awaits rule token facts := by
  induction tokens with
  | nil => exact ⟨[], rfl, by simp⟩
  | cons first tokens ih =>
    obtain ⟨facts, hfacts⟩ := boundFacts_ok hdistinct (hlive first (by simp))
    obtain ⟨found, hfound, hiff⟩ := ih fun token htoken => hlive token (by simp [htoken])
    have hfirst : (∃ facts, net.Awaits rule first facts)
        ↔ refractionKey rule first (facts.map (·.version)) ∉ net.fired := by
      constructor
      . rintro ⟨facts', hfacts', hnew⟩
        rw [hfacts, Except.ok.injEq] at hfacts'
        rw [hfacts']
        exact hnew
      . exact fun hnew => ⟨facts, hfacts, hnew⟩
    unfold pendingOf hasFired
    rw [hfacts, hfound]
    refine ⟨_, rfl, ?_⟩
    intro name token
    split
    . next hfired =>
      rw [List.contains_iff_mem] at hfired
      rw [hiff, List.mem_cons]
      constructor
      . rintro ⟨hname, hmem, hawaits⟩
        exact ⟨hname, .inr hmem, hawaits⟩
      . rintro ⟨hname, rfl | hmem, hawaits⟩
        . exact absurd hfired (hfirst.mp hawaits)
        . exact ⟨hname, hmem, hawaits⟩
    . next hnot =>
      rw [List.contains_iff_mem] at hnot
      rw [List.mem_cons, hiff, Prod.mk.injEq, List.mem_cons]
      constructor
      . rintro (⟨rfl, rfl⟩ | ⟨hname, hmem, hawaits⟩)
        . exact ⟨rfl, .inl rfl, hfirst.mpr hnot⟩
        . exact ⟨hname, .inr hmem, hawaits⟩
      . rintro ⟨rfl, rfl | hmem, hawaits⟩
        . exact .inl ⟨rfl, rfl⟩
        . exact .inr ⟨rfl, hmem, hawaits⟩

theorem pending_ok (h : net.Sound) : ∃ found, net.pending = .ok found ∧ ∀ name token,
    (name, token) ∈ found ↔ ∃ rule tokens facts, net.matched name = some (rule, tokens)
      ∧ token ∈ tokens ∧ net.Awaits rule token facts := by
  have hof : ∀ memory ∈ net.memories, ∃ found,
      net.pendingOf memory.rule (Stage.complete memory.stages) = .ok found
        ∧ ∀ name token, (name, token) ∈ found ↔ name = memory.rule.name
          ∧ token ∈ Stage.complete memory.stages ∧ ∃ facts, net.Awaits memory.rule token facts :=
    fun memory hmemory => pendingOf_ok h.distinct
      (live_of_matched h (matched_eq (memory?_of_mem h hmemory)))
  obtain ⟨found, hfound, hiff⟩ := mapM_ok fun memory hmemory =>
    (hof memory hmemory).imp fun _ hok => hok.1
  refine ⟨found.flatten, by rw [pending, hfound]; rfl, ?_⟩
  intro name token
  rw [List.mem_flatten]
  simp only [hiff]
  constructor
  . rintro ⟨bs, ⟨memory, hmemory, hbs⟩, hmem⟩
    obtain ⟨bs', hbs', hmems⟩ := hof memory hmemory
    rw [hbs, Except.ok.injEq] at hbs'
    rw [hbs', hmems] at hmem
    obtain ⟨rfl, htoken, facts, hawaits⟩ := hmem
    exact ⟨_, _, facts, matched_eq (memory?_of_mem h hmemory), htoken, hawaits⟩
  . rintro ⟨rule, tokens, facts, hmatched, htoken, hawaits⟩
    obtain ⟨memory, hmemory, rfl, rfl⟩ := exists_of_matched hmatched
    have hmem := List.mem_of_find?_eq_some hmemory
    obtain ⟨bs, hbs, hmems⟩ := hof memory hmem
    exact ⟨bs, ⟨memory, hmem, hbs⟩,
      (hmems name token).mpr ⟨(name_of_memory? hmemory).symm, htoken, facts, hawaits⟩⟩

theorem Scheduled.find?_iff (h : net.Scheduled fun _ _ => False) (name : String) (token : Token) :
    (∃ a, net.agenda.find? (name, token) = some a) ↔ ∃ rule tokens facts,
      net.matched name = some (rule, tokens) ∧ token ∈ tokens ∧ net.Awaits rule token facts := by
  constructor
  . rintro ⟨a, ha⟩
    obtain ⟨rule, tokens, facts, hmatched, htoken, hawaits, -⟩ := h.due name token a ha
    exact ⟨rule, tokens, facts, hmatched, htoken, hawaits⟩
  . rintro ⟨rule, tokens, facts, hmatched, htoken, hawaits⟩
    exact h.offered name rule tokens hmatched token htoken id facts hawaits

end Network
end ForwardChaining
