import ForwardChaining.Proofs.Network.Work

/-!
This module contains what becomes of the stages of a rule when the facts change: every node is replaced
by one that follows the change, and the tokens that bind a removed fact are dropped. The stages stay
grounded, and they stay settled except for the tokens whose key was reported.
-/

namespace ForwardChaining

namespace WorkingMemory

variable {w w' : WorkingMemory}

theorem mem_members_iff (h : ∀ memory ∈ w.alphas, memory.Tracks w.facts) (alpha : Nat) (id : Int) :
    id ∈ w.members alpha
      ↔ ∃ filter, (w.alphas.map (·.filter))[alpha]? = some filter
        ∧ ∃ fact ∈ w.facts, fact.id = id ∧ filter.admits fact = true := by
  unfold members
  rw [List.getElem?_map]
  cases hmemory : w.alphas[alpha]? with
  | none => simp
  | some memory =>
    simp only [Option.map_some, Option.some.injEq, exists_eq_left']
    exact AlphaMemory.mem_of_tracks (h memory (List.mem_of_getElem? hmemory)) id

theorem live_child (h : ∀ memory ∈ w.alphas, memory.Tracks w.facts) {token child : Token}
    {node : Node} (hlive : w.Live token) (hchild : node.Child w token child) : w.Live child := by
  cases node with
  | pattern alpha =>
    obtain ⟨id, hmem, -, rfl⟩ := hchild
    obtain ⟨-, -, fact, hfact, hid, -⟩ := (mem_members_iff h alpha id).mp hmem
    intro other hother
    rcases List.mem_append.mp hother with hother | hother
    . exact hlive other hother
    . rw [List.mem_singleton.mp hother]
      exact ⟨fact, hfact, hid⟩
  | join | negation | aggregate =>
    rw [(Node.child_iff rfl).mp hchild]
    exact hlive

theorem live_nil : w.Live [] := by
  intro id hid
  simp at hid

end WorkingMemory

namespace Node

theorem isPattern_of_follows {node node' : Node} {reported : Option Key}
    (h : node.Follows node' reported) : node'.isPattern = node.isPattern := by
  cases node <;> cases node' <;> first | rfl | exact False.elim h

theorem eq_pattern_of_follows {alpha : Nat} {node' : Node} {reported : Option Key}
    (h : (pattern alpha).Follows node' reported) : node' = .pattern alpha := by
  cases node' with
  | pattern alpha' => exact congrArg pattern h
  | join | negation | aggregate => exact False.elim h

/-- A condition decides as before about a token, unless the token asks for the key reported. -/
theorem verdict_of_follows {w w' : WorkingMemory} {vars : List String} {token : Token}
    {node node' : Node} {reported : Option Key} (h : node.Follows node' reported)
    (hbindings : w'.bindings vars token = w.bindings vars token)
    (hquiet : ∀ key ∈ reported, ¬ Network.Asks w' vars node'.keys key token) :
    node'.verdict w' vars token = node.verdict w vars token := by
  -- The token asks about no reported key, and about all others the memory answers as before.
  have hother : ∀ bindings, w'.bindings vars token = .ok bindings → ∀ asked,
      bindingKey node'.keys bindings = .ok asked →
        ∀ key ∈ reported, Key.same asked key = false := by
    intro bindings hb asked hasked key hkey
    rw [Bool.eq_false_iff]
    exact fun hsame => hquiet key hkey ⟨bindings, asked, hb, hasked, hsame⟩
  rw [hbindings] at hother
  cases node with
  | pattern alpha => cases node' <;> first | rfl | exact False.elim h
  | join across =>
    cases node' with
    | join across' =>
      obtain rfl : across' = across := h
      simp only [verdict, hbindings]
    | _ => exact False.elim h
  | negation memory =>
    cases node' with
    | negation memory' =>
      obtain ⟨hkeys, hfollows⟩ := h
      simp only [verdict, hbindings, keys, hkeys] at hother ⊢
      cases hb : w.bindings vars token with
      | error fault => rfl
      | ok bindings =>
        simp only [Except.bind]
        cases hasked : bindingKey memory.keys bindings with
        | error fault => rfl
        | ok asked =>
          simp only [Except.map]
          rw [hfollows asked (frozen_bindingKey hasked) (hother bindings hb asked hasked)]
    | _ => exact False.elim h
  | aggregate memory =>
    cases node' with
    | aggregate memory' =>
      obtain ⟨hkeys, htest, hfollows⟩ := h
      simp only [verdict, hbindings, keys, hkeys] at hother ⊢
      cases hb : w.bindings vars token with
      | error fault => rfl
      | ok bindings =>
        simp only [Except.bind]
        cases hasked : bindingKey memory.keys bindings with
        | error fault => rfl
        | ok asked =>
          have hfound := hfollows asked (frozen_bindingKey hasked) (hother bindings hb asked hasked)
          simp only [AggregateMemory.passes, AggregateMemory.value, hfound, htest]
    | _ => exact False.elim h

section Turned

variable {w w' : WorkingMemory} {vars : List String} {keep : Token → Bool} {token child : Token}
  (hkeep : keep token = true)

include hkeep

theorem turned_pattern {alpha : Nat} {id : Int} {seeded : Prop}
    (hmembers : ∀ other ∈ w'.members alpha,
      (other ∈ w.members alpha ∧ ∀ token, keep token = true → keep (token ++ [other]) = true)
        ∨ (other = id ∧ seeded))
    (hchild : (pattern alpha).Child w' token child)
    (hclear : ¬ (child.getLast? = some id ∧ seeded)) :
    (pattern alpha).Child w token child ∧ keep child = true
      ∧ ((pattern alpha).Yields w' vars token child ↔ (pattern alpha).Yields w vars token child) := by
  obtain ⟨other, hmem, hnew, rfl⟩ := hchild
  rcases hmembers other hmem with ⟨hold, hstays⟩ | ⟨rfl, hseeded⟩
  . have hchild : (pattern alpha).Child w token (token ++ [other]) := ⟨other, hold, hnew, rfl⟩
    refine ⟨hchild, hstays token hkeep, ?_⟩
    rw [yields_pattern, yields_pattern]
    exact iff_of_true ⟨other, hmem, hnew, rfl⟩ hchild
  . exact absurd ⟨by simp, hseeded⟩ hclear

/-- A condition that binds nothing lets through what it let through before, unless it is tested again. -/
theorem turned_test {node node' : Node} {reported : Option Key} (h : node.Follows node' reported)
    (hpattern : node.isPattern = false)
    (hbindings : w'.bindings vars token = w.bindings vars token)
    (hchild : node'.Child w' token child)
    (hclear : ∀ key ∈ reported, ¬ Network.Asks w' vars node'.keys key child) :
    node.Child w token child ∧ keep child = true
      ∧ (node'.Yields w' vars token child ↔ node.Yields w vars token child) := by
  have hpattern' := (isPattern_of_follows h).trans hpattern
  obtain rfl := (child_iff hpattern').mp hchild
  refine ⟨(child_iff hpattern).mpr rfl, hkeep, ?_⟩
  rw [yields_iff hpattern, yields_iff hpattern', verdict_of_follows h hbindings hclear]

end Turned

end Node

namespace Stage

variable {w w' : WorkingMemory} {f : Node → Node × Option Key} {keep : Token → Bool}
  {parents : List Token} {stages : List Stage}

/-- The stage with another node and with some of its tokens. -/
def turn (f : Node → Node × Option Key) (keep : Token → Bool) (stage : Stage) : Stage :=
  { node := (f stage.node).1, tokens := stage.tokens.filter keep }

theorem AllGrounded.turn (h : AllGrounded w parents stages)
    (hkept : ∀ stage ∈ stages, ∀ token child, stage.node.Child w token child →
      keep child = true → keep token = true ∧ (f stage.node).1.Child w' token child) :
    AllGrounded w' (parents.filter keep) (stages.map (Stage.turn f keep)) := by
  induction stages generalizing parents with
  | nil => trivial
  | cons stage stages ih =>
    refine ⟨⟨h.1.nodup.filter keep, ?_⟩, ih h.2 fun other hother => hkept other (by simp [hother])⟩
    intro child hchild
    simp only [Stage.turn, List.mem_filter] at hchild
    obtain ⟨token, htoken, hof⟩ := h.1.closed child hchild.1
    obtain ⟨hkeep, hof'⟩ := hkept stage (by simp) token child hof hchild.2
    exact ⟨token, List.mem_filter.mpr ⟨htoken, hkeep⟩, hof'⟩

theorem AllGrounded.live (halphas : ∀ memory ∈ w.alphas, memory.Tracks w.facts)
    (h : AllGrounded w parents stages) (hparents : ∀ token ∈ parents, w.Live token) :
    ∀ token ∈ final parents stages, w.Live token := by
  induction stages generalizing parents with
  | nil => exact hparents
  | cons stage stages ih =>
    apply ih h.2
    intro child hchild
    obtain ⟨token, htoken, hof⟩ := h.1.closed child hchild
    exact WorkingMemory.live_child halphas (hparents token htoken) hof

theorem AllSettled.turn {vars : List String} {doubt : Nat → Token → Prop}
    (halphas : ∀ memory ∈ w.alphas, memory.Tracks w.facts) (hground : AllGrounded w parents stages)
    (h : AllSettled w vars (fun _ _ => False) parents stages)
    (hlive : ∀ token ∈ parents, w.Live token)
    (hturn : ∀ i stage, stages[i]? = some stage → ∀ token, w.Live token → keep token = true →
      ∀ child, (f stage.node).1.Child w' token child → ¬ doubt i child →
        stage.node.Child w token child ∧ keep child = true
          ∧ ((f stage.node).1.Yields w' vars token child ↔ stage.node.Yields w vars token child)) :
    AllSettled w' vars doubt (parents.filter keep) (stages.map (Stage.turn f keep)) := by
  induction stages generalizing parents doubt with
  | nil => trivial
  | cons stage stages ih =>
    constructor
    . intro token htoken child hchild hclear
      rw [List.mem_filter] at htoken
      obtain ⟨hchild', hkeep, hyields⟩ :=
        hturn 0 stage rfl token (hlive token htoken.1) htoken.2 child hchild hclear
      simp only [Stage.turn, List.mem_filter, hkeep, and_true]
      rw [hyields]
      exact h.1 token htoken.1 child hchild' id
    . apply ih hground.2 h.2
      . intro child hchild
        obtain ⟨token, htoken, hof⟩ := hground.1.closed child hchild
        exact WorkingMemory.live_child halphas (hlive token htoken) hof
      . intro i
        exact hturn (i + 1)

end Stage

namespace Network

/-- The facts have changed, all nodes have followed, and some tokens were dropped everywhere. -/
structure Turned (f : Node → Node × Option Key) (keep : Token → Bool) (net net' : Network) :
    Prop where
  ruleSet : net'.ruleSet = net.ruleSet
  rules : net'.memories.map (·.rule) = net.memories.map (·.rule)
  filters : net'.working.alphas.map (·.filter) = net.working.alphas.map (·.filter)
  distinct : Distinct net'.working.facts
  alphas : ∀ alpha ∈ net'.working.alphas, alpha.Tracks net'.working.facts
  memory? : ∀ name, net'.memory? name = (net.memory? name).map fun memory =>
    { memory with stages := memory.stages.map (Stage.turn f keep) }

namespace Turned

variable {f : Node → Node × Option Key} {keep : Token → Bool} {net net' : Network}

theorem exists_old (h : Turned f keep net net') {name : String} {memory' : RuleMemory}
    (hmemory' : net'.memory? name = some memory') :
    ∃ memory, net.memory? name = some memory
      ∧ memory' = { memory with stages := memory.stages.map (Stage.turn f keep) } := by
  rw [h.memory?, Option.map_eq_some_iff] at hmemory'
  obtain ⟨memory, hmemory, heq⟩ := hmemory'
  exact ⟨memory, hmemory, heq.symm⟩

end Turned

theorem Sound.exists_condition {net : Network} (h : net.Sound) {name : String}
    {memory : RuleMemory} (hmemory : net.memory? name = some memory) {i : Nat} {stage : Stage}
    (hstage : memory.stages[i]? = some stage) :
    memory.rule ∈ net.ruleSet.rules ∧ ∃ condition, memory.rule.conditions[i]? = some condition
      ∧ stage.node.Implements net.working.alphas condition ∧ condition.Safe := by
  have hrule : memory.rule ∈ net.ruleSet.rules := by
    rw [← h.rules]
    exact List.mem_map.mpr ⟨memory, List.mem_of_find?_eq_some hmemory, rfl⟩
  refine ⟨hrule, ?_⟩
  have himplements := h.implements name memory hmemory
  have hi : i < memory.stages.length := (List.getElem?_eq_some_iff.mp hstage).1
  have hi' : i < memory.rule.conditions.length := by
    rw [himplements.length_eq]
    exact hi
  refine ⟨memory.rule.conditions[i], List.getElem?_eq_getElem hi', ?_, ?_⟩
  . have := himplements.get hi' hi
    rw [(List.getElem?_eq_some_iff.mp hstage).2.symm]
    exact this
  . exact h.safe memory.rule hrule _ (List.getElem_mem hi')

theorem Sound.turned {f : Node → Node × Option Key} {keep : Token → Bool} {net net' : Network}
    (h : net.Sound) (ht : Turned f keep net net') (hnil : keep [] = true)
    (hnode : ∀ node condition, node.Implements net.working.alphas condition → condition.Safe →
      node.Tracks net.working.facts →
        (f node).1.Implements net.working.alphas condition ∧ (f node).1.Tracks net'.working.facts)
    (hkept : ∀ node token child, node.Child net.working token child → keep child = true →
      keep token = true ∧ (f node).1.Child net'.working token child) : net'.Sound := by
  refine ⟨?_, ?_, ?_, ?_, ?_, ht.distinct, ht.alphas, ?_, ?_, ?_⟩
  . rw [ht.rules, ht.ruleSet]
    exact h.rules
  . rw [ht.ruleSet]
    exact h.names
  . rw [ht.ruleSet]
    exact h.index
  . rw [ht.ruleSet]
    exact h.safe
  . intro alpha halpha
    have hmem : alpha.filter ∈ net.working.alphas.map (·.filter) := by
      rw [← ht.filters]
      exact List.mem_map.mpr ⟨alpha, halpha, rfl⟩
    obtain ⟨old, hold, heq⟩ := List.mem_map.mp hmem
    rw [← heq]
    exact h.filters old hold
  . intro name memory' hmemory'
    obtain ⟨memory, hmemory, rfl⟩ := ht.exists_old hmemory'
    rw [List.forall₂_map_right_iff]
    have himplements := h.implements name memory hmemory
    rw [List.forall₂_iff_get] at himplements ⊢
    refine ⟨himplements.1, ?_⟩
    intro i hi hi'
    obtain ⟨-, condition, hcondition, himpl, hsafe⟩ := h.exists_condition hmemory
      (List.getElem?_eq_getElem hi')
    rw [List.getElem?_eq_getElem hi, Option.some.injEq] at hcondition
    rw [List.get_eq_getElem, List.get_eq_getElem, hcondition]
    have hfilters : (net.working.alphas.map (·.filter)).IsPrefix
        (net'.working.alphas.map (·.filter)) := by
      rw [ht.filters]
    apply Node.implements_of_filters hfilters
    exact (hnode _ condition himpl hsafe
      (h.nodes name memory hmemory _ (List.getElem_mem hi'))).1
  . intro name memory' hmemory' stage' hstage'
    obtain ⟨memory, hmemory, rfl⟩ := ht.exists_old hmemory'
    obtain ⟨stage, hstage, rfl⟩ := List.mem_map.mp hstage'
    obtain ⟨i, hi⟩ := List.mem_iff_getElem?.mp hstage
    obtain ⟨-, condition, -, himpl, hsafe⟩ := h.exists_condition hmemory hi
    exact (hnode stage.node condition himpl hsafe (h.nodes name memory hmemory stage hstage)).2
  . intro name memory' hmemory'
    obtain ⟨memory, hmemory, rfl⟩ := ht.exists_old hmemory'
    have hgrounded : Stage.AllGrounded net'.working ([[]].filter keep)
        (memory.stages.map (Stage.turn f keep)) :=
      (h.grounded name memory hmemory).turn fun stage _ => hkept stage.node
    simpa [hnil] using hgrounded

/-- Some of the tasks decide about a token of a rule. -/
def InDoubt (net : Network) (id : Int) (tasks : List Task) (name : String) (i : Nat)
    (token : Token) : Prop :=
  ∃ memory, net.memory? name = some memory ∧ ∃ task ∈ tasks,
    task.Decides id net.working memory.rule (memory.stages.map (·.node)) i token

theorem Settled.turned {f : Node → Node × Option Key} {keep : Token → Bool} {net net' : Network}
    (h : net.Sound) (ht : Turned f keep net net') {name : String}
    (hsettled : net.Settled name fun _ _ => False) {id : Int} {tasks : List Task}
    (hnil : keep [] = true)
    (hbindings : ∀ token, net.working.Live token → keep token = true → ∀ vars,
      net'.working.bindings vars token = net.working.bindings vars token)
    (hfollows : ∀ node : Node, node.Tracks net.working.facts → node.Safe →
      node.Follows (f node).1 (f node).2)
    (hretest : ∀ memory, net.memory? name = some memory → ∀ i stage, memory.stages[i]? = some stage →
      ∀ key, (f stage.node).2 = some key → .retest ⟨name, i, key⟩ ∈ tasks)
    (hseed : ∀ memory, net.memory? name = some memory → ∀ i stage, memory.stages[i]? = some stage →
      ∀ alpha, stage.node = .pattern alpha → ∀ other ∈ net'.working.members alpha,
        (other ∈ net.working.members alpha
            ∧ ∀ token, keep token = true → keep (token ++ [other]) = true)
          ∨ (other = id ∧ .seed (name, i) ∈ tasks)) :
    net'.Settled name (net'.InDoubt id tasks name) := by
  intro memory' hmemory'
  obtain ⟨memory, hmemory, heq⟩ := ht.exists_old hmemory'
  have hname := name_of_memory? hmemory
  have hturned : Stage.AllSettled net'.working memory.rule.vars (net'.InDoubt id tasks name)
      ([[]].filter keep) (memory.stages.map (Stage.turn f keep)) := by
    apply (hsettled memory hmemory).turn h.alphas (h.grounded name memory hmemory)
    . simpa using WorkingMemory.live_nil
    . intro i stage hstage token hlive hkeep child hchild hclear
      obtain ⟨-, condition, -, himplements, hsafe⟩ := h.exists_condition hmemory hstage
      have hfollow := hfollows stage.node
        (h.nodes name memory hmemory stage (List.mem_of_getElem? hstage))
        (Node.safe_of_implements himplements hsafe)
      have hnode : ((memory.stages.map (Stage.turn f keep)).map (·.node))[i]?
          = some (f stage.node).1 := by
        rw [List.getElem?_map, List.getElem?_map, hstage]
        rfl
      -- A pattern is in doubt about the new fact only, any other condition about the key it reports.
      cases hpattern : stage.node.isPattern with
      | true =>
        obtain ⟨alpha, hshape⟩ := Node.exists_of_isPattern hpattern
        rw [hshape] at hfollow hchild hnode ⊢
        rw [Node.eq_pattern_of_follows hfollow] at hchild hnode ⊢
        apply Node.turned_pattern hkeep (hseed memory hmemory i stage hstage alpha hshape) hchild
        rintro ⟨hlast, htask⟩
        apply hclear
        refine ⟨memory', hmemory', _, htask, ?_⟩
        rw [heq]
        exact ⟨by rw [hname], hlast, _, hnode, rfl⟩
      | false =>
        apply Node.turned_test hkeep hfollow hpattern
          (hbindings token hlive hkeep memory.rule.vars) hchild
        intro key hkey hasks
        apply hclear
        refine ⟨memory', hmemory', _, hretest memory hmemory i stage hstage key hkey, ?_⟩
        rw [heq]
        exact ⟨by rw [hname], _, hnode, hasks⟩
  rw [heq]
  simpa [hnil] using hturned

end Network
end ForwardChaining
