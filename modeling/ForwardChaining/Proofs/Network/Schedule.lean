import ForwardChaining.Proofs.Agenda
import ForwardChaining.Proofs.Network.Start

/-!
This module contains how the agenda follows the matches. Whatever the network does, and wherever it is cut
short, the agenda holds exactly the complete matches that have not fired, each with the versions and the
stamps that its facts have now.
-/

namespace ForwardChaining

namespace Stage

theorem complete_eq_getLast? (stages : List Stage) :
    complete stages = ((stages.map (·.tokens)).getLast?).getD [[]] := by
  unfold complete
  rw [List.getLast?_map]
  cases stages.getLast? <;> rfl

theorem complete_congr {stages stages' : List Stage}
    (h : stages'.map (·.tokens) = stages.map (·.tokens)) : complete stages' = complete stages := by
  rw [complete_eq_getLast?, complete_eq_getLast?, h]

end Stage

namespace Agenda

/-- The agenda without some matches of a rule. -/
def withdrawEach (rule : String) (tokens : List Token) (agenda : Agenda) : Agenda :=
  tokens.foldl (fun agenda token => (agenda.withdraw (rule, token)).1) agenda

theorem find?_withdrawEach (rule : String) (tokens : List Token) (agenda : Agenda)
    (key : ActivationKey) :
    (agenda.withdrawEach rule tokens).find? key
      = if key.1 = rule ∧ key.2 ∈ tokens then none else agenda.find? key := by
  induction tokens generalizing agenda with
  | nil => simp [withdrawEach]
  | cons token tokens ih =>
    change ((agenda.withdraw (rule, token)).1.withdrawEach rule tokens).find? key = _
    obtain ⟨name, other⟩ := key
    rw [ih, find?_withdraw]
    by_cases hname : name = rule <;> by_cases hother : other = token <;>
      by_cases hmem : other ∈ tokens <;> simp [hname, hother, hmem]

theorem Orderly.withdrawEach {agenda : Agenda} {bound : Nat} (h : agenda.Orderly bound)
    (rule : String) (tokens : List Token) : (agenda.withdrawEach rule tokens).Orderly bound := by
  induction tokens generalizing agenda with
  | nil => exact h
  | cons token tokens ih => exact ih (h.withdraw (rule, token))

end Agenda

namespace Network

/-! ### Bound facts -/

theorem boundFacts_congr {net net' : Network} {token : Token}
    (h : ∀ id ∈ token, net'.working.find id = net.working.find id) :
    net'.boundFacts token = net.boundFacts token := by
  unfold boundFacts
  induction token with
  | nil => rfl
  | cons id token ih =>
    rw [List.mapM_cons, List.mapM_cons, h id (by simp), ih fun other hother => h other (by simp [hother])]

/-! ### The schedule -/

/-- The rule of a name, and its complete matches. -/
def matched (net : Network) (name : String) : Option (Rule × List Token) :=
  (net.memory? name).map fun memory => (memory.rule, Stage.complete memory.stages)

/-- A match of a rule binds some facts and has not fired with their versions. -/
def Awaits (net : Network) (rule : Rule) (token : Token) (facts : List Fact) : Prop :=
  net.boundFacts token = .ok facts
    ∧ refractionKey rule token (facts.map (·.version)) ∉ net.fired

end Network

/-- The activation of a match, with the versions and the stamps of some facts. -/
structure Activation.Binds (a : Activation) (rule : Rule) (token : Token) (facts : List Fact) :
    Prop where
  rule : a.rule = rule
  token : a.token = token
  versions : a.versions = facts.map (·.version)
  recency : a.recency = (facts.map (·.recency)).mergeSort fun x y => y ≤ x

namespace Network

/--
The agenda holds the complete matches that have not fired, as their facts are now. Those that are to do
may still be missing.
-/
structure Scheduled (net : Network) (todo : String → Token → Prop) : Prop where
  orderly : net.agenda.Orderly net.serial
  due : ∀ name token a, net.agenda.find? (name, token) = some a → ∃ rule tokens facts,
    net.matched name = some (rule, tokens) ∧ token ∈ tokens ∧ net.Awaits rule token facts
      ∧ a.Binds rule token facts
  offered : ∀ name rule tokens, net.matched name = some (rule, tokens) → ∀ token ∈ tokens,
    ¬ todo name token → ∀ facts, net.Awaits rule token facts →
      ∃ a, net.agenda.find? (name, token) = some a

variable {net net' : Network} {todo todo' : String → Token → Prop}

theorem Scheduled.narrow (h : net.Scheduled todo)
    (htodo : ∀ name rule tokens, net.matched name = some (rule, tokens) → ∀ token ∈ tokens,
      todo name token → todo' name token) : net.Scheduled todo' := by
  refine ⟨h.orderly, h.due, ?_⟩
  intro name rule tokens hmatched token htoken hclear
  exact h.offered name rule tokens hmatched token htoken fun hin =>
    hclear (htodo name rule tokens hmatched token htoken hin)

theorem Scheduled.mono (h : net.Scheduled todo)
    (htodo : ∀ name token, todo name token → todo' name token) : net.Scheduled todo' :=
  h.narrow fun name _ _ _ token _ => htodo name token

/-- Steps that change neither the complete matches nor the facts they bind leave the agenda in step. -/
theorem Scheduled.frame (h : net.Scheduled todo) (hagenda : net'.agenda = net.agenda)
    (hserial : net'.serial = net.serial) (hfired : net'.fired = net.fired)
    (hmatched : ∀ name, net'.matched name = net.matched name)
    (hbound : ∀ name rule tokens, net.matched name = some (rule, tokens) → ∀ token ∈ tokens,
      net'.boundFacts token = net.boundFacts token) : net'.Scheduled todo := by
  refine ⟨?_, ?_, ?_⟩
  . rw [hagenda, hserial]
    exact h.orderly
  . intro name token a ha
    rw [hagenda] at ha
    obtain ⟨rule, tokens, facts, hfound, htoken, ⟨hfacts, hnew⟩, hbinds⟩ := h.due name token a ha
    refine ⟨rule, tokens, facts, by rw [hmatched, hfound], htoken, ⟨?_, by rw [hfired]; exact hnew⟩,
      hbinds⟩
    rw [hbound name rule tokens hfound token htoken, hfacts]
  . intro name rule tokens hfound token htoken hclear facts ⟨hfacts, hnew⟩
    rw [hmatched] at hfound
    rw [hbound name rule tokens hfound token htoken] at hfacts
    rw [hfired] at hnew
    rw [hagenda]
    exact h.offered name rule tokens hfound token htoken hclear facts ⟨hfacts, hnew⟩

theorem Scheduled.record (h : net.Scheduled todo) (entries : List LogEntry) :
    (net.record entries).Scheduled todo :=
  h.frame rfl rfl rfl (fun _ => rfl) fun _ _ _ _ _ _ => rfl

theorem matched_eq {name : String} {memory : RuleMemory} (h : net.memory? name = some memory) :
    net.matched name = some (memory.rule, Stage.complete memory.stages) := by
  rw [matched, h, Option.map_some]

theorem exists_of_matched {name : String} {rule : Rule} {tokens : List Token}
    (h : net.matched name = some (rule, tokens)) : ∃ memory, net.memory? name = some memory
      ∧ memory.rule = rule ∧ Stage.complete memory.stages = tokens := by
  obtain ⟨memory, hmemory, heq⟩ := Option.map_eq_some_iff.mp h
  exact ⟨memory, hmemory, (Prod.mk.inj heq).1, (Prod.mk.inj heq).2⟩

theorem name_of_matched {name : String} {rule : Rule} {tokens : List Token}
    (h : net.matched name = some (rule, tokens)) : rule.name = name := by
  obtain ⟨memory, hmemory, rfl, -⟩ := exists_of_matched h
  exact name_of_memory? hmemory

/-! ### Offers -/

theorem scheduled_activate (h : net.Scheduled todo) {name : String} {rule : Rule}
    {tokens : List Token} (hmatched : net.matched name = some (rule, tokens)) {token : Token}
    (htoken : token ∈ tokens) {facts : List Fact} (hfacts : net.boundFacts token = .ok facts) :
    (activate rule token net).1.Scheduled fun other child =>
      todo other child ∧ ¬ (other = name ∧ child = token) := by
  have hname := name_of_matched hmatched
  unfold activate
  rw [hfacts]
  dsimp only
  -- A match that has fired is not offered again, and nothing is due for it.
  by_cases hfired : net.fired.contains (refractionKey rule token (facts.map (·.version))) = true
  . rw [if_pos hfired]
    refine ⟨h.orderly, h.due, ?_⟩
    intro other rule' tokens' hfound child hchild hclear facts' hawaits
    by_cases hthis : other = name ∧ child = token
    . obtain ⟨rfl, rfl⟩ := hthis
      rw [hmatched, Option.some.injEq, Prod.mk.injEq] at hfound
      rw [← hfound.1, Awaits, hfacts, Except.ok.injEq] at hawaits
      obtain ⟨rfl, hnew⟩ := hawaits
      exact absurd (List.contains_iff_mem.mp hfired) hnew
    . exact h.offered other rule' tokens' hfound child hchild (fun hin => hclear ⟨hin, hthis⟩)
        facts' hawaits
  . rw [if_neg hfired]
    have hnew : refractionKey rule token (facts.map (·.version)) ∉ net.fired := by
      rw [← List.contains_iff_mem]
      exact hfired
    refine ⟨h.orderly.offer rfl, ?_, ?_⟩
    . intro other child a ha
      rw [Agenda.find?_offer] at ha
      split at ha
      . next hkey =>
        simp only [Activation.key, Prod.mk.injEq] at hkey
        obtain ⟨rfl, rfl⟩ := hkey
        rw [← Option.some.inj ha, hname]
        exact ⟨rule, tokens, facts, hmatched, htoken, ⟨hfacts, hnew⟩, rfl, rfl, rfl, rfl⟩
      . exact h.due other child a ha
    . intro other rule' tokens' hfound child hchild hclear facts' hawaits
      rw [Agenda.find?_offer]
      split
      . exact ⟨_, rfl⟩
      . next hkey =>
        apply h.offered other rule' tokens' hfound child hchild _ facts' hawaits
        intro hin
        refine hclear ⟨hin, ?_⟩
        rintro ⟨rfl, rfl⟩
        exact hkey (by rw [Activation.key, hname])

theorem matched_activate (rule : Rule) (token : Token) (net : Network) (name : String) :
    (activate rule token net).1.matched name = net.matched name := by
  unfold activate
  split
  . rfl
  . dsimp only
    split <;> rfl

theorem scheduled_activateEach (h : net.Scheduled todo) (hdistinct : Distinct net.working.facts)
    {name : String} {rule : Rule} {tokens : List Token}
    (hmatched : net.matched name = some (rule, tokens)) {new : List Token}
    (hnew : ∀ token ∈ new, token ∈ tokens) (hlive : ∀ token ∈ new, net.working.Live token) :
    (Update.each (activate rule) new net).1.Scheduled fun other child =>
      todo other child ∧ ¬ (other = name ∧ child ∈ new) := by
  induction new generalizing net todo with
  | nil => exact h.mono fun other child hin => ⟨hin, by simp⟩
  | cons token new ih =>
    obtain ⟨facts, hfacts⟩ := boundFacts_ok hdistinct (hlive token (by simp))
    have hfirst := scheduled_activate h hmatched (hnew token (by simp)) hfacts
    have hok := activate_ok hdistinct rule (hlive token (by simp))
    have hworking := working_activate rule token net
    have hmatched' := matched_activate rule token net name
    simp only [Update.each, Update.andThen]
    cases hactivate : activate rule token net with
    | mk net' fault =>
      rw [hactivate] at hfirst hok hworking hmatched'
      simp only at hfirst hok hworking hmatched'
      subst hok
      apply (ih hfirst (by rw [hworking]; exact hdistinct) (by rw [hmatched', hmatched])
        (fun other hother => hnew other (by simp [hother])) (by
          intro other hother
          rw [hworking]
          exact hlive other (by simp [hother]))).mono
      rintro other child ⟨⟨hin, hfirst⟩, hrest⟩
      refine ⟨hin, ?_⟩
      rintro ⟨rfl, hmem⟩
      rcases List.mem_cons.mp hmem with rfl | hmem
      . exact hfirst ⟨rfl, rfl⟩
      . exact hrest ⟨rfl, hmem⟩

/-! ### Tokens -/

theorem scheduled_mapStages (h : net.Scheduled todo) {name : String} {memory : RuleMemory}
    (hmemory : net.memory? name = some memory) {stages : List Stage} {new : List Token}
    (hcomplete : Stage.complete stages = Stage.complete memory.stages ++ new) :
    (net.mapStages name fun _ => stages).Scheduled fun other child =>
      todo other child ∨ (other = name ∧ child ∈ new) := by
  have hother : ∀ other, other ≠ name →
      (net.mapStages name fun _ => stages).matched other = net.matched other := by
    intro other hne
    simp [matched, memory?_mapStages, hne]
  have hthis : (net.mapStages name fun _ => stages).matched name
      = some (memory.rule, Stage.complete memory.stages ++ new) := by
    simp [matched, memory?_mapStages, hmemory, hcomplete]
  refine ⟨h.orderly, ?_, ?_⟩
  . intro other child a ha
    obtain ⟨rule, tokens, facts, hfound, htoken, hrest⟩ := h.due other child a ha
    by_cases hname : other = name
    . subst hname
      rw [matched_eq hmemory, Option.some.injEq, Prod.mk.injEq] at hfound
      obtain ⟨rfl, rfl⟩ := hfound
      exact ⟨_, _, facts, hthis, List.mem_append_left _ htoken, hrest⟩
    . exact ⟨rule, tokens, facts, by rw [hother other hname, hfound], htoken, hrest⟩
  . intro other rule tokens hfound child hchild hclear facts hawaits
    rw [not_or] at hclear
    by_cases hname : other = name
    . subst hname
      rw [hthis, Option.some.injEq, Prod.mk.injEq] at hfound
      obtain ⟨rfl, rfl⟩ := hfound
      rcases List.mem_append.mp hchild with hold | hnew
      . exact h.offered other _ _ (matched_eq hmemory) child hold hclear.1 facts hawaits
      . exact absurd ⟨rfl, hnew⟩ hclear.2
    . rw [hother other hname] at hfound
      exact h.offered other rule tokens hfound child hchild hclear.1 facts hawaits

/-- All matches that tokens complete are offered; if they cannot be pushed on, there are none. -/
theorem scheduled_extend (h : net.Scheduled todo) (hsound : net.Sound) {name : String}
    {memory : RuleMemory} (hmemory : net.memory? name = some memory) {position : Nat}
    {tokens : List Token}
    (hgrounded : Stage.AllGrounded net.working [[]]
      (Stage.extend net.working memory.rule.vars tokens position memory.stages).1) :
    (net.extend name position tokens).1.Scheduled todo := by
  unfold extend
  simp only [hmemory]
  cases houtcome : (Stage.extend net.working memory.rule.vars tokens position memory.stages).2.outcome with
  | error fault =>
    have hcomplete := Stage.final_extend_error houtcome [[]]
    rw [← Stage.complete_eq_final, ← Stage.complete_eq_final] at hcomplete
    rw [← List.append_nil (Stage.complete memory.stages)] at hcomplete
    have hstages := scheduled_mapStages h hmemory hcomplete
    refine (hstages.record _).mono ?_
    rintro other child (hin | ⟨-, hmem⟩)
    . exact hin
    . cases hmem
  | ok new =>
    have hcomplete := Stage.final_extend houtcome [[]]
    have hlive := hgrounded.live hsound.alphas (by simpa using WorkingMemory.live_nil)
    rw [hcomplete] at hlive
    rw [← Stage.complete_eq_final, ← Stage.complete_eq_final] at hcomplete
    have hstages := scheduled_mapStages h hmemory hcomplete
    have hmatched : (net.mapStages name fun _ =>
        (Stage.extend net.working memory.rule.vars tokens position memory.stages).1).matched name
          = some (memory.rule, Stage.complete memory.stages ++ new) := by
      simp [matched, memory?_mapStages, hmemory, hcomplete]
    refine (scheduled_activateEach (hstages.record _) hsound.distinct hmatched
      (fun token htoken => List.mem_append_right _ htoken)
      (fun token htoken => hlive token (List.mem_append_right _ htoken))).mono ?_
    rintro other child ⟨hin | hnew, hnot⟩
    . exact hin
    . exact absurd hnew hnot

section Drop

variable {name : String} {position : Nat} {memory : RuleMemory}
  (hmemory : net.memory? name = some memory) (doomed : Token → Bool)

theorem awaits_drop (name : String) (position : Nat) (doomed : Token → Bool) {rule : Rule}
    {child : Token} {facts : List Fact} :
    (net.drop name position doomed).Awaits rule child facts ↔ net.Awaits rule child facts := by
  obtain ⟨-, hworking, hfired, -⟩ := net.frame_drop name position doomed
  rw [Awaits, Awaits, hfired, boundFacts, hworking, boundFacts]

include hmemory

theorem find?_drop (key : ActivationKey) :
    (net.drop name position doomed).agenda.find? key
      = if key.1 = name ∧ key.2 ∈ (Stage.complete memory.stages).filter doomed then none
        else net.agenda.find? key := by
  unfold drop
  simp only [hmemory]
  exact Agenda.find?_withdrawEach name _ net.agenda key

theorem matched_drop (hposition : position < memory.stages.length) (other : String) :
    (net.drop name position doomed).matched other = (net.matched other).map fun found =>
      (found.1, if other = name then found.2.filter (!doomed ·) else found.2) := by
  have hcomplete : Stage.complete (Stage.drop doomed position memory.stages)
      = (Stage.complete memory.stages).filter (!doomed ·) := by
    rw [Stage.complete_eq_final, Stage.complete_eq_final]
    exact Stage.final_drop [[]] doomed hposition
  rw [matched, matched, memory?_drop, Option.map_map, Option.map_map]
  by_cases hother : other = name
  . subst hother
    simp [hmemory, hcomplete]
  . simp [hother, Function.comp_def]

end Drop

theorem scheduled_drop (h : net.Scheduled todo) {name : String} {position : Nat} {stage : Stage}
    (hstage : net.stage? name position = some stage) (doomed : Token → Bool) :
    (net.drop name position doomed).Scheduled todo := by
  obtain ⟨memory, hmemory, hat⟩ := exists_of_stage? hstage
  have hmatched := matched_drop hmemory doomed (List.getElem?_eq_some_iff.mp hat).1
  refine ⟨?_, ?_, ?_⟩
  . unfold drop
    simp only [hmemory]
    exact h.orderly.withdrawEach name _
  . intro other child a ha
    rw [find?_drop hmemory] at ha
    split at ha
    . cases ha
    . next hkept =>
      obtain ⟨rule, tokens, facts, hfound, htoken, hdue, hbinds⟩ := h.due other child a ha
      refine ⟨rule, _, facts, by rw [hmatched, hfound]; rfl, ?_,
        (awaits_drop name position doomed).mpr hdue, hbinds⟩
      by_cases hother : other = name
      . subst hother
        rw [matched_eq hmemory, Option.some.injEq, Prod.mk.injEq] at hfound
        obtain ⟨rfl, rfl⟩ := hfound
        simp only [List.mem_filter, true_and, htoken, Bool.not_eq_true] at hkept
        simp [htoken, hkept]
      . simpa [hother] using htoken
  . intro other rule tokens hfound child hchild hclear facts hdue
    rw [hmatched, Option.map_eq_some_iff] at hfound
    obtain ⟨⟨rule', tokens'⟩, hold, heq⟩ := hfound
    simp only [Prod.mk.injEq] at heq
    obtain ⟨rfl, rfl⟩ := heq
    -- A match that is still there was not doomed.
    have hthere : child ∈ tokens' ∧ (other = name → doomed child = false) := by
      by_cases hother : other = name
      . simp only [hother, if_true, List.mem_filter, Bool.not_eq_true'] at hchild
        exact ⟨hchild.1, fun _ => hchild.2⟩
      . simp only [hother, if_false] at hchild
        exact ⟨hchild, fun heq => absurd heq hother⟩
    rw [find?_drop hmemory, if_neg]
    . exact h.offered other rule' tokens' hold child hthere.1 hclear facts
        ((awaits_drop name position doomed).mp hdue)
    . rintro ⟨hother, hmem⟩
      rw [List.mem_filter, hthere.2 hother] at hmem
      exact Bool.false_ne_true hmem.2

/-! ### Tasks -/

theorem scheduled_seed (h : net.Scheduled todo) (hsound : net.Sound) (id : Int)
    (place : String × Nat) : (seed id place net).1.Scheduled todo := by
  obtain ⟨rule, position⟩ := place
  cases hmemory : net.memory? rule with
  | none =>
    rw [seed_of_none hmemory]
    exact h
  | some memory =>
    rcases seed_cases hmemory id position with
      ⟨heq, -⟩ | ⟨stage, alpha, hstage, hnode, hmem, heq⟩
    . rw [heq]
      exact h
    . rw [heq]
      exact scheduled_extend h hsound hmemory
        (grounded_seeded hstage hnode hmem (hsound.grounded rule memory hmemory))

theorem scheduled_reevaluate (h : net.Scheduled todo) (hsound : net.Sound) {d : Disturbance}
    (hsuits : (Task.retest d).Suits net) : (reevaluate d net).1.Scheduled todo := by
  cases hstage : net.stage? d.rule d.position with
  | none =>
    rw [reevaluate_of_none hstage]
    exact h
  | some stage =>
    obtain ⟨memory, hmemory, hat⟩ := exists_of_stage? hstage
    have hnode := hsuits stage hstage
    have hground := hsound.grounded d.rule memory hmemory
    cases hverdicts : (net.verdicts memory.rule.vars stage.node d.key
        (Stage.parents d.position memory.stages)).outcome with
    | error fault =>
      rw [reevaluate_eq_error hmemory hat hverdicts]
      exact h.record _
    | ok found =>
      obtain ⟨passing, failing⟩ := found
      have hdecided := verdicts_ok hnode hverdicts
      rw [Stage.parents_eq_final] at hdecided
      rw [reevaluate_eq_extend hmemory hat hverdicts]
      have hrecord := reaches_record net (net.verdicts memory.rule.vars stage.node d.key
        (Stage.parents d.position memory.stages)).log hmemory
      have hdrop := hrecord.trans (reaches_drop (hrecord.memory?_self hmemory) d.position fun token =>
        (failing.filter stage.tokens.contains).contains
          (token.take (Stage.width d.position memory.stages)))
      have hnodes := Stage.map_node_drop (fun token => (failing.filter stage.tokens.contains).contains
        (token.take (Stage.width d.position memory.stages))) d.position memory.stages
      have hstage' : (net.record (net.verdicts memory.rule.vars stage.node d.key
          (Stage.parents d.position memory.stages)).log).stage? d.rule d.position = some stage := hstage
      apply scheduled_extend (scheduled_drop (h.record _) hstage' _)
        (hsound.reaches hmemory hdrop hnodes (grounded_dropped hground hat)) (hdrop.memory?_self hmemory)
      rw [hdrop.working]
      exact grounded_retested hground hat hnode hdecided

theorem scheduled_tasks (h : net.Scheduled todo) (hsound : net.Sound) (id : Int) {tasks : List Task}
    (hsuits : ∀ task ∈ tasks, task.Suits net) :
    (Update.each (Task.run id) tasks net).1.Scheduled todo := by
  induction tasks generalizing net with
  | nil => exact h
  | cons task tasks ih =>
    obtain ⟨hkeeps, hsound', -⟩ := sound_task hsound id (hsuits task (by simp))
    have hfirst : (task.run id net).1.Scheduled todo := by
      cases task with
      | seed place => exact scheduled_seed h hsound id place
      | retest d => exact scheduled_reevaluate h hsound (hsuits _ (by simp))
    simp only [Update.each, Update.andThen]
    split
    . next net' heq =>
      rw [heq] at hkeeps hsound' hfirst
      exact ih hfirst hsound' fun other hother =>
        suits_of_keeps hkeeps (hsuits other (by simp [hother]))
    . next heq =>
      rw [heq] at hfirst
      exact hfirst

end Network
end ForwardChaining
