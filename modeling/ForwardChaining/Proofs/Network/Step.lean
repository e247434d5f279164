import ForwardChaining.Network.Basic
import ForwardChaining.Proofs.Network.Stage

/-!
This module contains what the steps of the network do to the stages of each rule, and what they leave
alone: a step for one rule changes the stages of this rule and the agenda.
-/

namespace ForwardChaining

namespace Network

/-! ### Frames -/

theorem name_of_memory? {net : Network} {rule : String} {memory : RuleMemory}
    (h : net.memory? rule = some memory) : memory.rule.name = rule := by
  simpa using List.find?_some h

theorem memory?_mapStages (net : Network) (rule : String) (f : List Stage → List Stage)
    (other : String) :
    (net.mapStages rule f).memory? other
      = (net.memory? other).map fun memory =>
          if other = rule then { memory with stages := f memory.stages } else memory := by
  unfold memory? mapStages
  rw [List.find?_map]
  have hname : ((fun memory : RuleMemory => decide (memory.rule.name = other)) ∘ fun memory =>
      if memory.rule.name = rule then { memory with stages := f memory.stages } else memory)
        = fun memory => decide (memory.rule.name = other) := by
    funext memory
    simp only [Function.comp_apply]
    split <;> rfl
  rw [hname]
  cases hfind : net.memories.find? fun memory => decide (memory.rule.name = other) with
  | none => rfl
  | some memory =>
    have : memory.rule.name = other := by simpa using List.find?_some hfind
    simp [this]

/-- A step that at most gives one rule new stages and changes the agenda. -/
structure Reaches (net : Network) (rule : String) (stages : List Stage) (net' : Network) : Prop where
  ruleSet : net'.ruleSet = net.ruleSet
  working : net'.working = net.working
  fired : net'.fired = net.fired
  rules : net'.memories.map (·.rule) = net.memories.map (·.rule)
  memory? : ∀ other, net'.memory? other
    = (net.memory? other).map fun memory => if other = rule then { memory with stages } else memory

namespace Reaches

theorem refl {net : Network} {rule : String} {memory : RuleMemory}
    (h : net.memory? rule = some memory) : net.Reaches rule memory.stages net := by
  refine ⟨rfl, rfl, rfl, rfl, ?_⟩
  intro other
  by_cases heq : other = rule
  . simp [heq, h]
  . simp [heq]

theorem trans {net net' net'' : Network} {rule : String} {stages stages' : List Stage}
    (h : net.Reaches rule stages net') (h' : net'.Reaches rule stages' net'') :
    net.Reaches rule stages' net'' := by
  refine ⟨h'.ruleSet.trans h.ruleSet, h'.working.trans h.working, h'.fired.trans h.fired,
    h'.rules.trans h.rules, ?_⟩
  intro other
  rw [h'.memory?, h.memory?, Option.map_map]
  congr
  funext memory
  by_cases heq : other = rule <;> simp [heq]

theorem memory?_self {net net' : Network} {rule : String} {stages : List Stage}
    (h : net.Reaches rule stages net') {memory : RuleMemory} (hm : net.memory? rule = some memory) :
    net'.memory? rule = some { memory with stages } := by
  simp [h.memory?, hm]

theorem memory?_other {net net' : Network} {rule other : String} {stages : List Stage}
    (h : net.Reaches rule stages net') (hne : other ≠ rule) :
    net'.memory? other = net.memory? other := by
  simp [h.memory?, hne]

end Reaches

theorem reaches_record (net : Network) (entries : List LogEntry) {rule : String}
    {memory : RuleMemory} (h : net.memory? rule = some memory) :
    net.Reaches rule memory.stages (net.record entries) :=
  have hrefl := Reaches.refl h
  ⟨hrefl.ruleSet, hrefl.working, hrefl.fired, hrefl.rules, hrefl.memory?⟩

theorem reaches_mapStages {net : Network} {rule : String} {memory : RuleMemory}
    (h : net.memory? rule = some memory) (f : List Stage → List Stage) :
    net.Reaches rule (f memory.stages) (net.mapStages rule f) := by
  refine ⟨rfl, rfl, rfl, ?_, ?_⟩
  . simp only [mapStages, List.map_map]
    apply List.map_congr_left
    intro memory _
    simp only [Function.comp_apply]
    split <;> rfl
  . intro other
    rw [memory?_mapStages]
    by_cases heq : other = rule
    . simp [heq, h]
    . simp [heq]

theorem reaches_activate (rule : Rule) (token : Token) (net : Network) {name : String}
    {memory : RuleMemory} (h : net.memory? name = some memory) :
    net.Reaches name memory.stages (activate rule token net).1 := by
  have hrefl := Reaches.refl h
  unfold activate
  split
  . exact hrefl
  . simp only
    split
    . exact hrefl
    . exact ⟨hrefl.ruleSet, hrefl.working, hrefl.fired, hrefl.rules, hrefl.memory?⟩

theorem reaches_activateEach (rule : Rule) (tokens : List Token) (net : Network) {name : String}
    {memory : RuleMemory} (h : net.memory? name = some memory) :
    net.Reaches name memory.stages (Update.each (activate rule) tokens net).1 := by
  induction tokens generalizing net memory with
  | nil => exact .refl h
  | cons token tokens ih =>
    have hfirst := reaches_activate rule token net h
    simp only [Update.each, Update.andThen]
    split
    . next heq =>
      rw [heq] at hfirst
      exact hfirst.trans (ih _ (hfirst.memory?_self h))
    . next heq =>
      rw [heq] at hfirst
      exact hfirst

/-! ### Tokens -/

theorem reaches_extend {net : Network} {rule : String} {memory : RuleMemory}
    (h : net.memory? rule = some memory) (position : Nat) (tokens : List Token) :
    net.Reaches rule
      (Stage.extend net.working memory.rule.vars tokens position memory.stages).1
      (net.extend rule position tokens).1 := by
  unfold extend
  simp only [h]
  have hstages := reaches_mapStages h fun _ =>
    (Stage.extend net.working memory.rule.vars tokens position memory.stages).1
  have hrecord := hstages.trans (reaches_record _
    (Stage.extend net.working memory.rule.vars tokens position memory.stages).2.log
    (hstages.memory?_self h))
  split
  . exact hrecord
  . next tokens _ =>
    exact hrecord.trans
      (reaches_activateEach memory.rule tokens _ (hrecord.memory?_self h))

theorem extend_ok {net net' : Network} {rule : String} {memory : RuleMemory}
    (h : net.memory? rule = some memory) {position : Nat} {tokens : List Token}
    (hok : net.extend rule position tokens = (net', none)) :
    ∃ new, (Stage.extend net.working memory.rule.vars tokens position memory.stages).2.outcome
      = .ok new := by
  unfold extend at hok
  simp only [h] at hok
  split at hok
  . simp at hok
  . next new heq => exact ⟨new, heq⟩

theorem reaches_drop {net : Network} {rule : String} {memory : RuleMemory}
    (h : net.memory? rule = some memory) (position : Nat) (doomed : Token → Bool) :
    net.Reaches rule (Stage.drop doomed position memory.stages) (net.drop rule position doomed) := by
  unfold drop
  simp only [h]
  have hstages := reaches_mapStages h (Stage.drop doomed position)
  exact ⟨hstages.ruleSet, hstages.working, hstages.fired, hstages.rules, hstages.memory?⟩

theorem memory?_drop (net : Network) (rule : String) (position : Nat) (doomed : Token → Bool)
    (name : String) :
    (net.drop rule position doomed).memory? name = (net.memory? name).map fun memory =>
      if name = rule then { memory with stages := Stage.drop doomed position memory.stages }
      else memory := by
  cases hrule : net.memory? rule with
  | none =>
    unfold drop
    simp only [hrule]
    by_cases hname : name = rule
    . simp [hname, hrule]
    . simp [hname]
  | some memory =>
    rw [(reaches_drop hrule position doomed).memory?]
    by_cases hname : name = rule
    . simp [hname, hrule]
    . simp [hname]

/-- The network without some tokens from a position on in each of several rules. -/
def dropEach (doomed : Token → Bool) (places : List (String × Nat)) (net : Network) : Network :=
  places.foldl (fun net place => net.drop place.1 place.2 doomed) net

theorem frame_drop (net : Network) (rule : String) (position : Nat) (doomed : Token → Bool) :
    (net.drop rule position doomed).ruleSet = net.ruleSet
      ∧ (net.drop rule position doomed).working = net.working
      ∧ (net.drop rule position doomed).fired = net.fired
      ∧ (net.drop rule position doomed).memories.map (·.rule) = net.memories.map (·.rule) := by
  cases hrule : net.memory? rule with
  | none =>
    unfold drop
    simp [hrule]
  | some memory =>
    have hreaches := reaches_drop hrule position doomed
    exact ⟨hreaches.ruleSet, hreaches.working, hreaches.fired, hreaches.rules⟩

theorem frame_dropEach (doomed : Token → Bool) (places : List (String × Nat)) (net : Network) :
    (net.dropEach doomed places).ruleSet = net.ruleSet
      ∧ (net.dropEach doomed places).working = net.working
      ∧ (net.dropEach doomed places).fired = net.fired
      ∧ (net.dropEach doomed places).memories.map (·.rule) = net.memories.map (·.rule) := by
  induction places generalizing net with
  | nil => exact ⟨rfl, rfl, rfl, rfl⟩
  | cons place places ih =>
    obtain ⟨hruleSet, hworking, hfired, hrules⟩ := ih (net.drop place.1 place.2 doomed)
    obtain ⟨hruleSet', hworking', hfired', hrules'⟩ := net.frame_drop place.1 place.2 doomed
    exact ⟨hruleSet.trans hruleSet', hworking.trans hworking', hfired.trans hfired',
      hrules.trans hrules'⟩

theorem memory?_dropEach_of_not_mem {doomed : Token → Bool} {places : List (String × Nat)}
    {name : String} (h : name ∉ places.map (·.1)) (net : Network) :
    (net.dropEach doomed places).memory? name = net.memory? name := by
  induction places generalizing net with
  | nil => rfl
  | cons place places ih =>
    rw [List.map_cons, List.mem_cons, not_or] at h
    change ((net.drop place.1 place.2 doomed).dropEach doomed places).memory? name = _
    rw [ih h.2, memory?_drop]
    simp [h.1]

theorem memory?_dropEach_of_mem {doomed : Token → Bool} {places : List (String × Nat)}
    (hnodup : (places.map (·.1)).Nodup) {name : String} {position : Nat}
    (h : (name, position) ∈ places) (net : Network) :
    (net.dropEach doomed places).memory? name = (net.memory? name).map fun memory =>
      { memory with stages := Stage.drop doomed position memory.stages } := by
  induction places generalizing net with
  | nil => simp at h
  | cons place places ih =>
    rw [List.map_cons, List.nodup_cons] at hnodup
    change ((net.drop place.1 place.2 doomed).dropEach doomed places).memory? name = _
    rcases List.mem_cons.mp h with rfl | h
    . rw [memory?_dropEach_of_not_mem hnodup.1, memory?_drop]
      simp
    . rw [ih hnodup.2 h, memory?_drop]
      have hne : name ≠ place.1 := by
        rintro rfl
        exact hnodup.1 (List.mem_map.mpr ⟨_, h, rfl⟩)
      simp [hne]

/-! ### Seeds -/

/-- The tokens with one more fact that a seed brings to a stage. -/
def seedlings (id : Int) (parents : List Token) : List Token :=
  (parents.filter (!·.contains id)).map (· ++ [id])

theorem mem_seedlings {id : Int} {parents : List Token} {child : Token} :
    child ∈ seedlings id parents ↔ ∃ token ∈ parents, id ∉ token ∧ child = token ++ [id] := by
  simp only [seedlings, List.mem_map, List.mem_filter]
  constructor
  . rintro ⟨token, ⟨hmem, hnew⟩, rfl⟩
    exact ⟨token, hmem, by simpa using hnew, rfl⟩
  . rintro ⟨token, hmem, hnew, rfl⟩
    exact ⟨token, ⟨hmem, by simpa using hnew⟩, rfl⟩

theorem stage?_eq {net : Network} {rule : String} {memory : RuleMemory}
    (h : net.memory? rule = some memory) (position : Nat) :
    net.stage? rule position = memory.stages[position]? := by
  simp [stage?, h]

theorem seed_eq_self {net : Network} {rule : String} {memory : RuleMemory}
    (h : net.memory? rule = some memory) {id : Int} {position : Nat}
    (hnone : ∀ stage, memory.stages[position]? = some stage → ∀ alpha,
      stage.node = .pattern alpha → id ∉ net.working.members alpha) :
    seed id (rule, position) net = (net, none) := by
  unfold seed
  simp only [h, stage?_eq h]
  split
  . next alpha tokens hmemory hstage =>
    have := hnone _ hstage alpha rfl
    simp [this]
  . rfl

theorem seed_eq_extend {net : Network} {rule : String} {memory : RuleMemory}
    (h : net.memory? rule = some memory) {id : Int} {position : Nat} {stage : Stage}
    (hstage : memory.stages[position]? = some stage) {alpha : Nat}
    (hnode : stage.node = .pattern alpha) (hmem : id ∈ net.working.members alpha) :
    seed id (rule, position) net
      = net.extend rule position
          (seedlings id (Stage.final [[]] (memory.stages.take position))) := by
  obtain ⟨node, tokens⟩ := stage
  simp only at hnode
  subst hnode
  unfold seed
  simp [h, stage?_eq h, hstage, hmem, Stage.parents_eq_final, seedlings]

/-! ### Tests of tokens whose key has changed -/

/-- The token asks for the key under some correlations. -/
def Asks (w : WorkingMemory) (vars : List String) (keys : List KeyBinding) (key : Key)
    (token : Token) : Prop :=
  ∃ bindings asked, w.bindings vars token = .ok bindings ∧ bindingKey keys bindings = .ok asked
    ∧ Key.same asked key = true

theorem asksFor_eq_ok {net : Network} {vars : List String} {keys : List KeyBinding} {key : Key}
    {token : Token} {answer : Bool} :
    net.asksFor vars keys key token = .ok answer
      ↔ ∃ bindings asked, net.working.bindings vars token = .ok bindings
          ∧ bindingKey keys bindings = .ok asked ∧ Key.same asked key = answer := by
  unfold asksFor
  simp only [doBind_eq_ok]
  constructor
  . rintro ⟨bindings, hb, asked, hk, heq⟩
    exact ⟨bindings, asked, hb, hk, Except.ok.inj heq⟩
  . rintro ⟨bindings, asked, hb, hk, rfl⟩
    exact ⟨bindings, hb, asked, hk, rfl⟩

theorem asksFor_eq_true {net : Network} {vars : List String} {keys : List KeyBinding} {key : Key}
    {token : Token} :
    net.asksFor vars keys key token = .ok true ↔ Asks net.working vars keys key token :=
  asksFor_eq_ok

/-- The tokens are judged in order; those that do not ask for the key are passed over. -/
inductive Judged (w : WorkingMemory) (vars : List String) (node : Node) (key : Key) :
    List Token → List Token → List Token → Prop
  | nil : Judged w vars node key [] [] []
  | skip {token : Token} {tokens passing failing : List Token}
      (hasks : ¬ Asks w vars node.keys key token)
      (h : Judged w vars node key tokens passing failing) :
      Judged w vars node key (token :: tokens) passing failing
  | pass {token : Token} {tokens passing failing : List Token}
      (hasks : Asks w vars node.keys key token) (hverdict : node.verdict w vars token = .ok true)
      (h : Judged w vars node key tokens passing failing) :
      Judged w vars node key (token :: tokens) (token :: passing) failing
  | fail {token : Token} {tokens passing failing : List Token}
      (hasks : Asks w vars node.keys key token) (hverdict : node.verdict w vars token = .ok false)
      (h : Judged w vars node key tokens passing failing) :
      Judged w vars node key (token :: tokens) passing (token :: failing)

theorem judged_of_verdicts {net : Network} {vars : List String} {node : Node} {key : Key}
    {tokens passing failing : List Token} (hnode : node.isPattern = false)
    (h : (net.verdicts vars node key tokens).outcome = .ok (passing, failing)) :
    Judged net.working vars node key tokens passing failing := by
  induction tokens generalizing passing failing with
  | nil =>
    simp only [verdicts, Logged.outcome_pure, Except.ok.injEq, Prod.mk.injEq] at h
    obtain ⟨rfl, rfl⟩ := h
    exact .nil
  | cons token tokens ih =>
    simp only [verdicts, Logged.outcome_bind, Logged.outcome_monadLift, bind_eq_ok] at h
    obtain ⟨asks, hasks, h⟩ := h
    cases asks with
    | false =>
      have hnot : ¬ Asks net.working vars node.keys key token := by
        rw [← asksFor_eq_true, hasks]
        simp
      exact .skip hnot (ih h)
    | true =>
      rw [asksFor_eq_true] at hasks
      simp only [if_true, Logged.outcome_bind, bind_eq_ok, Logged.outcome_pure, Except.ok.injEq,
        Prod.exists] at h
      obtain ⟨out, hout, admitted, rejected, hrest, heq⟩ := h
      rw [Node.outcome_advance hnode, map_eq_ok] at hout
      obtain ⟨passes, hverdict, rfl⟩ := hout
      cases passes with
      | true =>
        cases heq
        exact .pass hasks hverdict (ih hrest)
      | false =>
        cases heq
        exact .fail hasks hverdict (ih hrest)

/-- The stages after the tokens that ask for a key were tested again. -/
def retested (w : WorkingMemory) (vars : List String) (position : Nat) (stage : Stage)
    (passing failing : List Token) (stages : List Stage) : List Stage × Logged (List Token) :=
  let rejected := failing.filter stage.tokens.contains
  Stage.extend w vars (passing.filter (!stage.tokens.contains ·)) position
    (Stage.drop (fun token => rejected.contains (token.take (Stage.width position stages)))
      position stages)

/-- The tokens that came in at a condition and asked for a key, by whether they pass it. -/
structure Verdicts (w : WorkingMemory) (vars : List String) (node : Node) (key : Key)
    (tokens passing failing : List Token) : Prop where
  passes_iff : ∀ token, token ∈ passing ↔
    token ∈ tokens ∧ Asks w vars node.keys key token ∧ node.verdict w vars token = .ok true
  fails_iff : ∀ token, token ∈ failing ↔
    token ∈ tokens ∧ Asks w vars node.keys key token ∧ node.verdict w vars token = .ok false
  decided : ∀ token ∈ tokens, Asks w vars node.keys key token →
    token ∈ passing ∨ token ∈ failing

theorem Judged.verdicts {w : WorkingMemory} {vars : List String} {node : Node} {key : Key}
    {tokens passing failing : List Token} (h : Judged w vars node key tokens passing failing) :
    Verdicts w vars node key tokens passing failing := by
  induction h with
  | nil => exact ⟨by simp, by simp, by simp⟩
  | @skip first tokens passing failing hasks _ ih =>
    refine ⟨?_, ?_, ?_⟩
    . intro token
      by_cases heq : token = first <;> simp [ih.passes_iff, heq, hasks]
    . intro token
      by_cases heq : token = first <;> simp [ih.fails_iff, heq, hasks]
    . rw [List.forall_mem_cons]
      exact ⟨fun h => absurd h hasks, ih.decided⟩
  | @pass first tokens passing failing hasks hverdict _ ih =>
    refine ⟨?_, ?_, ?_⟩
    . intro token
      by_cases heq : token = first <;> simp [ih.passes_iff, heq, hasks, hverdict]
    . intro token
      by_cases heq : token = first <;> simp [ih.fails_iff, heq, hverdict]
    . rw [List.forall_mem_cons]
      refine ⟨fun _ => by simp, fun token htoken h => ?_⟩
      exact (ih.decided token htoken h).imp_left (List.mem_cons_of_mem _)
  | @fail first tokens passing failing hasks hverdict _ ih =>
    refine ⟨?_, ?_, ?_⟩
    . intro token
      by_cases heq : token = first <;> simp [ih.passes_iff, heq, hverdict]
    . intro token
      by_cases heq : token = first <;> simp [ih.fails_iff, heq, hasks, hverdict]
    . rw [List.forall_mem_cons]
      refine ⟨fun _ => by simp, fun token htoken h => ?_⟩
      exact (ih.decided token htoken h).imp_right (List.mem_cons_of_mem _)

theorem verdicts_ok {net : Network} {vars : List String} {node : Node} {key : Key}
    {tokens passing failing : List Token} (hnode : node.isPattern = false)
    (h : (net.verdicts vars node key tokens).outcome = .ok (passing, failing)) :
    Verdicts net.working vars node key tokens passing failing :=
  (judged_of_verdicts hnode h).verdicts

theorem inherited_take {rejected : List Token} {width : Nat} :
    Stage.Inherited width fun token => rejected.contains (token.take width) := by
  intro token id hlength
  simp only [List.take_append_of_le_length hlength]

section Retested

variable {w : WorkingMemory} {vars : List String} {position : Nat} {stage : Stage}
  {stages : List Stage} {key : Key} {passing failing : List Token}

theorem length_of_mem_stage (hground : Stage.AllGrounded w [[]] stages)
    (hstage : stages[position]? = some stage) :
    ∀ token ∈ stage.tokens, token.length = Stage.width position stages := by
  intro token htoken
  have hlast : stages.take (position + 1) = stages.take position ++ [stage] := by
    rw [List.take_add_one, hstage]
    rfl
  have hfinal : ∀ (parents : List Token) (before : List Stage),
      Stage.final parents (before ++ [stage]) = stage.tokens := by
    intro parents before
    induction before generalizing parents with
    | nil => rfl
    | cons first before ih => exact ih first.tokens
  have hlength := Stage.length_of_mem_final (n := 0) (hground.take (position + 1)) (by simp)
  rw [hlast, hfinal] at hlength
  rw [hlength token htoken, Stage.width_eq_binds, hlast, Nat.zero_add]

theorem length_of_mem_parents (hground : Stage.AllGrounded w [[]] stages)
    (hstage : stages[position]? = some stage) (hnode : stage.node.isPattern = false) :
    ∀ token ∈ Stage.final [[]] (stages.take position),
      token.length = Stage.width position stages := by
  intro token htoken
  rw [Stage.length_of_mem_final (n := 0) (hground.take position) (by simp) token htoken,
    Stage.width_eq_binds, Stage.binds, Stage.binds, List.take_add_one, hstage]
  simp [hnode]

variable (hground : Stage.AllGrounded w [[]] stages) (hstage : stages[position]? = some stage)
  (hnode : stage.node.isPattern = false)
  (hverdicts : Verdicts w vars stage.node key (Stage.final [[]] (stages.take position))
    passing failing)

include hground hstage in
theorem grounded_dropped : Stage.AllGrounded w [[]] (Stage.drop (fun token =>
    (failing.filter stage.tokens.contains).contains
      (token.take (Stage.width position stages))) position stages) := by
  apply hground.drop inherited_take
  intro other hother token htoken
  rw [hstage, Option.some.injEq] at hother
  rw [← hother] at htoken
  exact Nat.le_of_eq (length_of_mem_stage hground hstage token htoken).symm

include hground hstage hnode hverdicts

theorem mem_retested {token : Token} (htoken : token ∈ Stage.final [[]] (stages.take position)) :
    ∃ stage', (retested w vars position stage passing failing stages).1[position]? = some stage'
      ∧ stage'.node = stage.node
      ∧ (token ∈ stage'.tokens
        ↔ token ∈ passing ∨ (token ∈ stage.tokens ∧ token ∉ failing)) := by
  refine ⟨_, Stage.getElem?_extend (Stage.getElem?_drop_stages hstage), rfl, ?_⟩
  have hlength := length_of_mem_parents hground hstage hnode token htoken
  rw [Stage.tokens_merge, List.mem_append, Stage.mem_merge, Stage.mem_sparing,
    List.take_of_length_le (Nat.le_of_eq hlength)]
  have hpass := hverdicts.passes_iff token
  have hfail := hverdicts.fails_iff token
  by_cases hp : token ∈ passing
  . have hp' := hpass.mp hp
    have hf : token ∉ failing := by
      intro hf
      have := (hfail.mp hf).2.2
      simp [hp'.2.2] at this
    by_cases hthere : token ∈ stage.tokens <;> simp [hp, hf, hthere]
  . by_cases hf : token ∈ failing <;> by_cases hthere : token ∈ stage.tokens <;>
      simp [hp, hf, hthere]

theorem grounded_retested :
    Stage.AllGrounded w [[]] (retested w vars position stage passing failing stages).1 := by
  apply (grounded_dropped hground hstage).extend
  intro other hother child hchild
  rw [Stage.getElem?_drop_stages hstage, Option.some.injEq] at hother
  rw [Stage.take_drop_stages, ← hother]
  simp only [List.mem_filter] at hchild
  exact ⟨child, ((hverdicts.passes_iff child).mp hchild.1).1, (Node.child_iff hnode).mpr rfl⟩

theorem settled_dropped {doubt : Nat → Token → Prop}
    (h : Stage.AllSettled w vars doubt [[]] stages) :
    Stage.AllSettled w vars doubt [[]] (Stage.drop (fun token =>
      (failing.filter stage.tokens.contains).contains
        (token.take (Stage.width position stages))) position stages) := by
  apply (h.drop inherited_take hground _ _).mono
  . intro i token hd
    exact hd.1
  . intro other hother token htoken
    rw [hstage, Option.some.injEq] at hother
    rw [← hother] at htoken
    exact Nat.le_of_eq (length_of_mem_stage hground hstage token htoken).symm
  . intro other hother token htoken child hdoomed hyields
    rw [hstage, Option.some.injEq] at hother
    rw [← hother, Node.yields_iff hnode] at hyields
    have hlength := length_of_mem_parents hground hstage hnode token htoken
    rw [hyields.1, List.take_of_length_le (Nat.le_of_eq hlength)] at hdoomed
    simp only [List.contains_iff_mem, List.mem_filter] at hdoomed
    have := ((hverdicts.fails_iff token).mp hdoomed.1).2.2
    simp [hyields.2] at this

theorem settled_retested {doubt : Nat → Token → Prop} {new : List Token}
    (h : Stage.AllSettled w vars doubt [[]] stages)
    (hok : (retested w vars position stage passing failing stages).2.outcome = .ok new) :
    Stage.AllSettled w vars
      (fun i token => doubt i token ∧ ¬ (i = position ∧ Asks w vars stage.node.keys key token))
      [[]] (retested w vars position stage passing failing stages).1 := by
  have hextended : Stage.AllSettled w vars doubt [[]]
      (retested w vars position stage passing failing stages).1 := by
    apply ((settled_dropped hground hstage hnode hverdicts h).extend
      (grounded_dropped hground hstage) _ hok |>.mono)
    . intro i token hd
      exact hd.1
    . intro other hother child hchild
      rw [Stage.getElem?_drop_stages hstage, Option.some.injEq] at hother
      rw [Stage.take_drop_stages, ← hother]
      simp only [List.mem_filter] at hchild
      have hpass := (hverdicts.passes_iff child).mp hchild.1
      exact ⟨child, hpass.1, (Node.yields_iff hnode).mpr ⟨rfl, hpass.2.2⟩⟩
  -- The parents of the stage are not touched, so the verdicts still speak about them.
  have htake : (retested w vars position stage passing failing stages).1.take position
      = stages.take position := by
    unfold retested
    rw [Stage.take_extend, Stage.take_drop_stages]
  apply hextended.clear position
  . intro stage' hstage' token htoken child hchild hclear
    have hsettled := hextended.at hstage'
    rw [htake] at hsettled htoken
    by_cases hasks : Asks w vars stage.node.keys key child
    . obtain ⟨found, hfound, hsame, hmem⟩ :=
        mem_retested hground hstage hnode hverdicts htoken
      rw [hstage', Option.some.injEq] at hfound
      rw [← hfound] at hsame hmem
      rw [hsame] at hchild ⊢
      rw [(Node.child_iff hnode).mp hchild] at hasks ⊢
      rw [hmem, Node.yields_iff hnode]
      rcases hverdicts.decided token htoken hasks with hpass | hfail
      . simp [hpass, ((hverdicts.passes_iff token).mp hpass).2.2]
      . have hverdict := ((hverdicts.fails_iff token).mp hfail).2.2
        have hnot : token ∉ passing := by
          intro hpass
          simp [((hverdicts.passes_iff token).mp hpass).2.2] at hverdict
        simp [hfail, hnot, hverdict]
    . apply hsettled token htoken child hchild
      intro hd
      exact hclear ⟨hd, fun h => hasks h.2⟩
  . intro i token hi hd
    exact ⟨hd, fun h => hi h.1⟩

end Retested

theorem reevaluate_eq_error {net : Network} {d : Disturbance} {memory : RuleMemory}
    (h : net.memory? d.rule = some memory) {stage : Stage}
    (hstage : memory.stages[d.position]? = some stage) {fault : Fault}
    (herror : (net.verdicts memory.rule.vars stage.node d.key
      (Stage.parents d.position memory.stages)).outcome = .error fault) :
    reevaluate d net = (net.record (net.verdicts memory.rule.vars stage.node d.key
      (Stage.parents d.position memory.stages)).log, some fault) := by
  unfold reevaluate
  simp only [h, stage?_eq h, hstage, herror]

theorem reevaluate_eq_extend {net : Network} {d : Disturbance} {memory : RuleMemory}
    (h : net.memory? d.rule = some memory) {stage : Stage}
    (hstage : memory.stages[d.position]? = some stage) {passing failing : List Token}
    (hok : (net.verdicts memory.rule.vars stage.node d.key
      (Stage.parents d.position memory.stages)).outcome = .ok (passing, failing)) :
    reevaluate d net
      = ((net.record (net.verdicts memory.rule.vars stage.node d.key
          (Stage.parents d.position memory.stages)).log).drop d.rule d.position
            (fun token => (failing.filter stage.tokens.contains).contains
              (token.take (Stage.width d.position memory.stages)))).extend d.rule d.position
            (passing.filter (!stage.tokens.contains ·)) := by
  unfold reevaluate
  simp only [h, stage?_eq h, hstage, hok]

theorem reaches_reevaluate {net : Network} {d : Disturbance} {memory : RuleMemory}
    (h : net.memory? d.rule = some memory) {stage : Stage}
    (hstage : memory.stages[d.position]? = some stage) {passing failing : List Token}
    (hok : (net.verdicts memory.rule.vars stage.node d.key
      (Stage.parents d.position memory.stages)).outcome = .ok (passing, failing)) :
    net.Reaches d.rule
      (retested net.working memory.rule.vars d.position stage passing failing memory.stages).1
      (reevaluate d net).1 := by
  rw [reevaluate_eq_extend h hstage hok]
  have hrecord := reaches_record net (net.verdicts memory.rule.vars stage.node d.key
      (Stage.parents d.position memory.stages)).log h
  have hdrop := hrecord.trans (reaches_drop (hrecord.memory?_self h) d.position fun token =>
    (failing.filter stage.tokens.contains).contains
      (token.take (Stage.width d.position memory.stages)))
  have hextend := hdrop.trans (reaches_extend (hdrop.memory?_self h) d.position
    (passing.filter (!stage.tokens.contains ·)))
  rw [hdrop.working] at hextend
  exact hextend

end Network
end ForwardChaining
