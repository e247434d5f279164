import ForwardChaining.Proofs.Network.Turn

/-!
This module contains what the network does when a fact comes or goes: first all nodes follow the change,
then tasks are worked off. Whether they are finished or not, the network is sound afterwards, and the
stages of a rule none of whose tasks was left are settled.
-/

namespace ForwardChaining

namespace Update

theorem each_append (f : α → σ → Update σ) (as bs : List α) (s : σ) :
    each f (as ++ bs) s = (each f as s).andThen (each f bs) := by
  induction as generalizing s with
  | nil => rfl
  | cons a as ih =>
    simp only [List.cons_append, each]
    obtain ⟨t, fault⟩ := f a s
    cases fault with
    | none => exact ih t
    | some fault => rfl

theorem each_map (f : β → σ → Update σ) (g : α → β) (as : List α) (s : σ) :
    each f (as.map g) s = each (fun a => f (g a)) as s := by
  induction as generalizing s with
  | nil => rfl
  | cons a as ih =>
    simp only [List.map_cons, each]
    congr
    funext t
    exact ih t

end Update

namespace Network

/-- The tasks that follow when a fact has come: it is bound at patterns, then tokens are tested again. -/
def tasksOf (positions : List (String × Nat)) (changed : List Disturbance) : List Task :=
  positions.map .seed ++ changed.map .retest

theorem each_tasksOf (id : Int) (positions : List (String × Nat)) (changed : List Disturbance)
    (net : Network) :
    Update.each (Task.run id) (tasksOf positions changed) net
      = (Update.each (seed id) positions net).andThen (Update.each reevaluate changed) := by
  have hretests : Update.each (Task.run id) (changed.map .retest)
      = Update.each reevaluate changed := by
    funext net'
    exact Update.each_map _ _ changed net'
  rw [tasksOf, Update.each_append, Update.each_map, hretests]
  rfl

/-! ### A fact comes -/

theorem put_of_unused {w : WorkingMemory} {fact : Fact} (h : Unused fact.id w.facts) :
    w.put fact = { w with facts := w.facts ++ [fact] } := by
  unfold WorkingMemory.put
  rw [if_neg]
  simp only [List.any_eq_true, decide_eq_true_eq, not_exists, not_and]
  exact fun other hother => h other hother

theorem remember_ok {alphas : List AlphaMemory} {facts : List Fact}
    (hsafe : ∀ alpha ∈ alphas, alpha.filter.Safe) (h : ∀ alpha ∈ alphas, alpha.Tracks facts)
    {fact : Fact} (hfresh : Unused fact.id facts) :
    ∃ alphas', (remember fact alphas).outcome = .ok alphas'
      ∧ alphas'.map (·.filter) = alphas.map (·.filter)
      ∧ ∀ alpha ∈ alphas', alpha.Tracks (facts ++ [fact]) := by
  induction alphas with
  | nil => exact ⟨[], rfl, rfl, by simp⟩
  | cons alpha alphas ih =>
    obtain ⟨alpha', hok, hfilter, htracks⟩ :=
      AlphaMemory.tracks_add (h alpha (by simp)) (hsafe alpha (by simp)) hfresh
    obtain ⟨alphas', hok', hfilters, htracks'⟩ :=
      ih (fun other hother => hsafe other (by simp [hother]))
        fun other hother => h other (by simp [hother])
    refine ⟨alpha' :: alphas', ?_, by simp [hfilter, hfilters], ?_⟩
    . simp only [remember, Logged.outcome_bind, hok, hok', Except.bind, Logged.outcome_pure]
    . rw [List.forall_mem_cons]
      exact ⟨htracks, htracks'⟩

theorem Sound.mem_positions_iff {net : Network} (h : net.Sound) {name : String}
    {memory : RuleMemory} (hmemory : net.memory? name = some memory) (type : String) (i : Nat) :
    (name, i) ∈ net.ruleSet.index.positionsOf type
      ↔ ∃ condition, memory.rule.conditions[i]? = some condition ∧ condition.RefersTo type := by
  rw [h.index, TypeIndex.positionsOf_build, TypeIndex.mem_placesOf]
  have hrule : memory.rule ∈ net.ruleSet.rules := by
    rw [← h.rules]
    exact List.mem_map.mpr ⟨memory, List.mem_of_find?_eq_some hmemory, rfl⟩
  have hname := name_of_memory? hmemory
  constructor
  . rintro ⟨rule, hmem, heq, hcondition⟩
    have : rule = memory.rule := by
      apply List.inj_on_of_nodup_map h.names hmem hrule
      rw [hname]
      exact heq.symm
    rw [← this]
    exact hcondition
  . intro hcondition
    exact ⟨memory.rule, hrule, hname.symm, hcondition⟩

theorem Sound.place_of_admits {net : Network} (h : net.Sound) {name : String}
    {memory : RuleMemory} (hmemory : net.memory? name = some memory) {i : Nat} {stage : Stage}
    (hstage : memory.stages[i]? = some stage) {alpha : Nat} (hnode : stage.node = .pattern alpha)
    {found : AlphaMemory} (hfound : net.working.alphas[alpha]? = some found) {fact : Fact}
    (hadmits : found.filter.admits fact = true) :
    (name, i) ∈ net.ruleSet.index.positionsOf fact.type := by
  obtain ⟨-, condition, hcondition, himplements, -⟩ := h.exists_condition hmemory hstage
  rw [h.mem_positions_iff hmemory]
  refine ⟨condition, hcondition, ?_⟩
  rw [hnode] at himplements
  cases condition with
  | pattern filter var =>
    obtain ⟨found', hfound', hidentity⟩ := himplements
    obtain rfl := Option.some.inj (hfound.symm.trans hfound')
    refine ⟨filter, rfl, ?_⟩
    rw [FactFilter.type_of_admits hadmits]
    exact (congrArg FactFilter.Identity.type hidentity).symm
  | join | negation | aggregate => exact False.elim himplements

theorem Sound.nodup_positions {net : Network} (h : net.Sound) (type : String) :
    (net.ruleSet.index.positionsOf type).Nodup := by
  rw [h.index, TypeIndex.positionsOf_build]
  exact TypeIndex.nodup_placesOf type h.names

theorem Sound.idle_counted {net : Network} (h : net.Sound) {name : String}
    {memory : RuleMemory} (hmemory : net.memory? name = some memory) (fact : Fact) {i : Nat}
    {stage : Stage} (hstage : memory.stages[i]? = some stage)
    (hnot : (name, i) ∉ net.ruleSet.index.positionsOf fact.type) :
    stage.node.counted fact = (stage.node, none) := by
  obtain ⟨-, condition, hcondition, himplements, hsafe⟩ := h.exists_condition hmemory hstage
  apply Node.counted_eq_self himplements (Node.safe_of_implements himplements hsafe)
  intro filter hfilter htype
  apply hnot
  rw [h.mem_positions_iff hmemory]
  exact ⟨condition, hcondition, filter, hfilter, htype⟩

theorem Sound.idle_remove {net : Network} (h : net.Sound) {name : String}
    {memory : RuleMemory} (hmemory : net.memory? name = some memory) {id : Int} {type : String}
    (htype : ∀ fact ∈ net.working.facts, fact.id = id → fact.type = type) {i : Nat}
    {stage : Stage} (hstage : memory.stages[i]? = some stage)
    (hnot : (name, i) ∉ net.ruleSet.index.positionsOf type) :
    stage.node.remove id = (stage.node, none) := by
  obtain ⟨-, condition, hcondition, himplements, -⟩ := h.exists_condition hmemory hstage
  apply Node.remove_eq_self himplements
    (h.nodes name memory hmemory stage (List.mem_of_getElem? hstage))
  intro filter hfilter fact hfact hid heq
  apply hnot
  rw [h.mem_positions_iff hmemory]
  refine ⟨condition, hcondition, filter, hfilter, ?_⟩
  rw [← heq, htype fact hfact hid]

/-- The network after all nodes have taken notice of a new fact, and the keys that were reported. -/
def arrival (fact : Fact) (net : Network) : Network × List Disturbance :=
  let remembered := remember fact net.working.alphas
  let (counted, changed) := count fact (net.ruleSet.index.positionsOf fact.type)
    { net.record remembered.log with
      working := {
        facts := net.working.facts ++ [fact]
        alphas := remembered.outcome.toOption.getD [] } }
  (counted, changed.toOption.getD [])

/-- All nodes have taken notice of a new fact. -/
structure Arrived (fact : Fact) (net net' : Network) (changed : List Disturbance) : Prop where
  turned : Turned (Node.counted fact) (fun _ => true) net net'
  facts : net'.working.facts = net.working.facts ++ [fact]
  fired : net'.fired = net.fired
  agenda : net'.agenda = net.agenda
  serial : net'.serial = net.serial
  changed : ∀ name memory, net.memory? name = some memory → ∀ position key,
    (⟨name, position, key⟩ : Disturbance) ∈ changed
      ↔ ∃ stage, memory.stages[position]? = some stage
        ∧ (stage.node.counted fact).2 = some key

/-- The fact is there, and the shared memories have taken notice of it. -/
structure Remembered (fact : Fact) (net ready : Network) : Prop where
  ruleSet : ready.ruleSet = net.ruleSet
  memories : ready.memories = net.memories
  fired : ready.fired = net.fired
  agenda : ready.agenda = net.agenda
  serial : ready.serial = net.serial
  facts : ready.working.facts = net.working.facts ++ [fact]
  filters : ready.working.alphas.map (·.filter) = net.working.alphas.map (·.filter)
  alphas : ∀ alpha ∈ ready.working.alphas, alpha.Tracks ready.working.facts

namespace Remembered

variable {fact : Fact} {net ready : Network} (hr : Remembered fact net ready)

include hr

theorem memory? (name : String) : ready.memory? name = net.memory? name := by
  unfold Network.memory?
  rw [hr.memories]

theorem safe (h : net.Sound) {place : String × Nat} {stage : Stage}
    (hstage : ready.stage? place.1 place.2 = some stage) : stage.node.Safe := by
  obtain ⟨memory, hmemory, hat⟩ := exists_of_stage? hstage
  rw [hr.memory?] at hmemory
  obtain ⟨-, condition, -, himplements, hcondition⟩ := h.exists_condition hmemory hat
  exact Node.safe_of_implements himplements hcondition

theorem arrived (h : net.Sound) (hfresh : Unused fact.id net.working.facts) {net' : Network}
    {changed : List Disturbance}
    (ht : Touched (Node.counted fact) (net.ruleSet.index.positionsOf fact.type) ready net' changed) :
    Arrived fact net net' changed := by
  have hidle : ∀ name memory, ready.memory? name = some memory → ∀ i stage,
      memory.stages[i]? = some stage → (name, i) ∉ net.ruleSet.index.positionsOf fact.type →
        stage.node.counted fact = (stage.node, none) := by
    intro name memory hmemory i stage
    rw [hr.memory?] at hmemory
    exact h.idle_counted hmemory fact
  refine ⟨⟨ht.ruleSet.trans hr.ruleSet, ?_, ?_, ?_, ?_, ?_⟩, ?_, ht.fired.trans hr.fired,
    ht.agenda.trans hr.agenda, ht.serial.trans hr.serial, ?_⟩
  . rw [ht.rules, hr.memories]
  . rw [ht.working, hr.filters]
  . rw [ht.working, hr.facts]
    exact distinct_append h.distinct hfresh
  . rw [ht.working]
    exact hr.alphas
  . intro name
    cases hmemory : net.memory? name with
    | none =>
      rw [ht.memory?, hr.memory?, hmemory]
      rfl
    | some memory =>
      rw [← hr.memory?] at hmemory
      rw [ht.memory?_of_idle hmemory (hidle name memory hmemory), Option.map_some,
        Option.some.injEq, RuleMemory.mk.injEq]
      refine ⟨rfl, List.map_congr_left ?_⟩
      intro stage _
      simp [Stage.touch, Stage.turn]
  . rw [ht.working, hr.facts]
  . intro name memory hmemory
    rw [← hr.memory?] at hmemory
    exact ht.mem_changed_of_idle hmemory (hidle name memory hmemory)

end Remembered

theorem arrived {net : Network} (h : net.Sound) {fact : Fact}
    (hfresh : Unused fact.id net.working.facts) :
    Arrived fact net (net.arrival fact).1 (net.arrival fact).2
      ∧ net.insert fact = Update.each (Task.run fact.id)
          (tasksOf (net.ruleSet.index.positionsOf fact.type) (net.arrival fact).2)
          (net.arrival fact).1 := by
  obtain ⟨alphas, halphas, hfilters, htracks⟩ := remember_ok h.filters h.alphas hfresh
  unfold arrival insert
  rw [put_of_unused hfresh]
  simp only [halphas, Except.toOption, Option.getD_some]
  have hrecord : ({ net with working := { net.working with facts := net.working.facts ++ [fact] } }
      : Network).record (remember fact net.working.alphas).log
        = { net.record (remember fact net.working.alphas).log with
            working := { net.working with facts := net.working.facts ++ [fact] } } := rfl
  simp only [hrecord]
  generalize hready : ({ net.record (remember fact net.working.alphas).log with
    working := { facts := net.working.facts ++ [fact], alphas } } : Network) = ready
  have hremembered : Remembered fact net ready := by
    rw [← hready]
    exact ⟨rfl, rfl, rfl, rfl, rfl, rfl, hfilters, htracks⟩
  obtain ⟨changed, hok, htouched⟩ :=
    touched_count (fun _ _ _ => hremembered.safe h) (h.nodup_positions fact.type)
  cases hcount : count fact (net.ruleSet.index.positionsOf fact.type) ready with
  | mk net' outcome =>
    rw [hcount] at hok htouched
    simp only at hok htouched
    subst hok
    refine ⟨hremembered.arrived h hfresh htouched, ?_⟩
    have hcount' : count fact ((net.record (remember fact net.working.alphas).log).ruleSet.index
        |>.positionsOf fact.type) ready = (net', .ok changed) := hcount
    rw [each_tasksOf, hcount']
    rfl

namespace Arrived

variable {net net' : Network} {fact : Fact} {changed : List Disturbance}

theorem mem_members (h : net.Sound) (ha : Arrived fact net net' changed) (alpha : Nat) (id : Int)
    (hmem : id ∈ net'.working.members alpha) :
    id ∈ net.working.members alpha
      ∨ (id = fact.id ∧ ∃ memory, net.working.alphas[alpha]? = some memory
          ∧ memory.filter.admits fact = true) := by
  rw [WorkingMemory.mem_members_iff ha.turned.alphas, ha.turned.filters] at hmem
  obtain ⟨filter, hfilter, other, hother, hid, hadmits⟩ := hmem
  rw [ha.facts, List.mem_append, List.mem_singleton] at hother
  rcases hother with hother | rfl
  . refine .inl ?_
    rw [WorkingMemory.mem_members_iff h.alphas]
    exact ⟨filter, hfilter, other, hother, hid, hadmits⟩
  . rw [List.getElem?_map, Option.map_eq_some_iff] at hfilter
    obtain ⟨memory, hmemory, rfl⟩ := hfilter
    exact .inr ⟨hid.symm, memory, hmemory, hadmits⟩

theorem members_subset (h : net.Sound) (ha : Arrived fact net net' changed) (alpha : Nat) :
    net.working.members alpha ⊆ net'.working.members alpha := by
  intro id hid
  rw [WorkingMemory.mem_members_iff h.alphas] at hid
  rw [WorkingMemory.mem_members_iff ha.turned.alphas, ha.turned.filters, ha.facts]
  obtain ⟨filter, hfilter, other, hother, hadmits⟩ := hid
  exact ⟨filter, hfilter, other, List.mem_append_left _ hother, hadmits⟩

theorem sound (h : net.Sound) (hfresh : Unused fact.id net.working.facts)
    (ha : Arrived fact net net' changed) : net'.Sound := by
  apply h.turned ha.turned rfl
  . intro node condition himplements hcondition htracks
    have hsafe := Node.safe_of_implements himplements hcondition
    rw [ha.facts]
    exact ⟨Node.implements_counted himplements hsafe fact,
      (Node.tracks_counted htracks hsafe hfresh).1⟩
  . intro node token child hchild _
    refine ⟨rfl, ?_⟩
    cases node with
    | pattern alpha =>
      obtain ⟨id, hmem, hnew, heq⟩ := hchild
      exact ⟨id, ha.members_subset h alpha hmem, hnew, heq⟩
    | join across => exact hchild
    | negation memory =>
      obtain rfl := (Node.child_iff rfl).mp hchild
      exact Node.child_counted rfl fact
    | aggregate memory =>
      obtain rfl := (Node.child_iff rfl).mp hchild
      exact Node.child_counted rfl fact

theorem settled (h : net.Sound) (hfresh : Unused fact.id net.working.facts)
    (ha : Arrived fact net net' changed) {name : String}
    (hsettled : net.Settled name fun _ _ => False) :
    net'.Settled name (net'.InDoubt fact.id
      (tasksOf (net.ruleSet.index.positionsOf fact.type) changed) name) := by
  apply hsettled.turned h ha.turned rfl
  . intro token hlive _ vars
    apply WorkingMemory.bindings_congr
    intro id hid
    obtain ⟨old, hold, rfl⟩ := hlive id hid
    rw [WorkingMemory.find_eq h.distinct hold]
    apply WorkingMemory.find_eq ha.turned.distinct
    rw [ha.facts]
    exact List.mem_append_left _ hold
  . intro node htracks hsafe
    exact (Node.tracks_counted htracks hsafe hfresh).2
  . intro memory hmemory i stage hstage key hkey
    apply List.mem_append_right
    exact List.mem_map.mpr ⟨_, (ha.changed name memory hmemory i key).mpr ⟨stage, hstage, hkey⟩, rfl⟩
  . intro memory hmemory i stage hstage alpha hnode other hmem
    rcases ha.mem_members h alpha other hmem with hold | ⟨rfl, found, hfound, hadmits⟩
    . exact .inl ⟨hold, fun _ _ => rfl⟩
    . have hplace := h.place_of_admits hmemory hstage hnode hfound hadmits
      exact .inr ⟨rfl, List.mem_append_left _ (List.mem_map.mpr ⟨(name, i), hplace, rfl⟩)⟩

theorem exact (h : net.Sound) (hfresh : Unused fact.id net.working.facts)
    (ha : Arrived fact net net' changed) {name : String} (hexact : net.Exact name)
    (hintegral : ∀ rule ∈ net.ruleSet.rules, rule.name = name →
      ∀ condition ∈ rule.conditions, condition.Integral fact) : net'.Exact name := by
  intro memory' hmemory' stage' hstage'
  obtain ⟨memory, hmemory, rfl⟩ := ha.turned.exists_old hmemory'
  obtain ⟨stage, hstage, rfl⟩ := List.mem_map.mp hstage'
  obtain ⟨i, hi⟩ := List.mem_iff_getElem?.mp hstage
  obtain ⟨hrule, condition, hcondition, himplements, hsafe⟩ := h.exists_condition hmemory hi
  exact Node.exact_counted himplements (h.nodes name memory hmemory stage hstage)
    (hexact memory hmemory stage hstage) hsafe hfresh
    (hintegral memory.rule hrule (name_of_memory? hmemory) condition
      (List.mem_of_getElem? hcondition))

theorem suits (h : net.Sound) (hfresh : Unused fact.id net.working.facts)
    (ha : Arrived fact net net' changed) :
    ∀ task ∈ tasksOf (net.ruleSet.index.positionsOf fact.type) changed, task.Suits net' := by
  intro task htask
  rcases List.mem_append.mp htask with htask | htask
  . obtain ⟨place, -, rfl⟩ := List.mem_map.mp htask
    trivial
  . obtain ⟨d, hd, rfl⟩ := List.mem_map.mp htask
    intro stage' hstage'
    obtain ⟨memory', hmemory', hat'⟩ := exists_of_stage? hstage'
    obtain ⟨memory, hmemory, rfl⟩ := ha.turned.exists_old hmemory'
    obtain ⟨stage, hat, hreport⟩ := (ha.changed d.rule memory hmemory d.position d.key).mp hd
    simp only [List.getElem?_map, hat, Option.map_some, Option.some.injEq] at hat'
    rw [← hat']
    cases hnode : stage.node with
    | pattern | join => simp [hnode, Node.counted, Node.add] at hreport
    | negation | aggregate =>
      obtain ⟨-, condition, -, himplements, hcondition⟩ := h.exists_condition hmemory hat
      have hfollows := (Node.tracks_counted
        (h.nodes d.rule memory hmemory stage (List.mem_of_getElem? hat))
        (Node.safe_of_implements himplements hcondition) hfresh).2
      simp only [Stage.turn]
      rw [Node.isPattern_of_follows hfollows, hnode]
      rfl

end Arrived

/-! ### A fact goes -/

/-- There is a pattern at a position of a rule. -/
def PatternAt (net : Network) (place : String × Nat) : Prop :=
  ∃ stage, net.stage? place.1 place.2 = some stage ∧ stage.node.isPattern = true

theorem firstPatterns_cons (net : Network) (place : String × Nat)
    (positions : List (String × Nat)) :
    (net.PatternAt place ∧ net.firstPatterns (place :: positions)
        = place :: (net.firstPatterns positions).filter (·.1 ≠ place.1))
      ∨ (¬ net.PatternAt place
        ∧ net.firstPatterns (place :: positions) = net.firstPatterns positions) := by
  obtain ⟨rule, position⟩ := place
  simp only [firstPatterns, PatternAt]
  cases hstage : net.stage? rule position with
  | none => exact .inr ⟨by simp, rfl⟩
  | some stage =>
    obtain ⟨node, tokens⟩ := stage
    cases node with
    | pattern alpha => exact .inl ⟨⟨_, rfl, rfl⟩, rfl⟩
    | join | negation | aggregate => exact .inr ⟨by simp [Node.isPattern], rfl⟩

theorem mem_firstPatterns {net : Network} {positions : List (String × Nat)}
    (h : positions.Pairwise fun a b => a.1 = b.1 → a.2 < b.2) {name : String} {i : Nat} :
    (name, i) ∈ net.firstPatterns positions
      ↔ (name, i) ∈ positions ∧ net.PatternAt (name, i)
        ∧ ∀ j, (name, j) ∈ positions → net.PatternAt (name, j) → i ≤ j := by
  induction positions with
  | nil => exact ⟨nofun, fun hmem => nomatch hmem.1⟩
  | cons place positions ih =>
    rw [List.pairwise_cons] at h
    obtain ⟨hfirst, hrest⟩ := h
    -- A pattern in front drops the later places of its rule, anything else drops nothing.
    rcases firstPatterns_cons net place positions with ⟨hpattern, heq⟩ | ⟨hnot, heq⟩
    . rw [heq, List.mem_cons, List.mem_filter, ih hrest]
      obtain ⟨rule, position⟩ := place
      simp only [Prod.mk.injEq, decide_eq_true_eq, List.mem_cons]
      constructor
      . rintro (⟨rfl, rfl⟩ | ⟨⟨hmem, hat, hmin⟩, hne⟩)
        . refine ⟨.inl ⟨rfl, rfl⟩, hpattern, ?_⟩
          rintro j (⟨-, rfl⟩ | hj) _
          . exact Nat.le_refl j
          . exact Nat.le_of_lt (hfirst (name, j) hj rfl)
        . refine ⟨.inr hmem, hat, ?_⟩
          rintro j (⟨heq, -⟩ | hj)
          . exact absurd heq hne
          . exact hmin j hj
      . rintro ⟨hmem, hat, hmin⟩
        by_cases hname : name = rule
        . subst hname
          have hle := hmin position (.inl ⟨rfl, rfl⟩) hpattern
          rcases hmem with ⟨-, rfl⟩ | hmem
          . exact .inl ⟨rfl, rfl⟩
          . have := hfirst (name, i) hmem rfl
            simp only at this
            omega
        . rcases hmem with ⟨heq, -⟩ | hmem
          . exact absurd heq hname
          . exact .inr ⟨⟨hmem, hat, fun j hj => hmin j (.inr hj)⟩, hname⟩
    . rw [heq, ih hrest]
      constructor
      . rintro ⟨hmem, hat, hmin⟩
        refine ⟨List.mem_cons_of_mem _ hmem, hat, ?_⟩
        intro j hj hpattern
        rcases List.mem_cons.mp hj with rfl | hj
        . exact absurd hpattern hnot
        . exact hmin j hj hpattern
      . rintro ⟨hmem, hat, hmin⟩
        rcases List.mem_cons.mp hmem with rfl | hmem
        . exact absurd hat hnot
        . exact ⟨hmem, hat, fun j hj => hmin j (List.mem_cons_of_mem _ hj)⟩

theorem nodup_firstPatterns (net : Network) (positions : List (String × Nat)) :
    ((net.firstPatterns positions).map (·.1)).Nodup := by
  induction positions with
  | nil => exact .nil
  | cons place positions ih =>
    rcases firstPatterns_cons net place positions with ⟨-, heq⟩ | ⟨-, heq⟩
    . rw [heq, List.map_cons, List.nodup_cons]
      refine ⟨?_, (List.filter_sublist.map _).nodup ih⟩
      simp
    . rw [heq]
      exact ih

theorem exists_firstPattern {net : Network} {positions : List (String × Nat)}
    (h : positions.Pairwise fun a b => a.1 = b.1 → a.2 < b.2) {name : String} {j : Nat}
    (hmem : (name, j) ∈ positions) (hpattern : net.PatternAt (name, j)) :
    ∃ i, (name, i) ∈ net.firstPatterns positions := by
  have hexists : ∃ i, (name, i) ∈ positions ∧ net.PatternAt (name, i) := ⟨j, hmem, hpattern⟩
  classical
  refine ⟨Nat.find hexists, ?_⟩
  rw [mem_firstPatterns h]
  obtain ⟨hfound, hat⟩ := Nat.find_spec hexists
  exact ⟨hfound, hat, fun k hk hpattern => Nat.find_min' hexists ⟨hk, hpattern⟩⟩

/--
When tokens that bind a fact are dropped from the first pattern on that may have bound it, they are
dropped from all stages.
-/
theorem memory?_dropFirst {net : Network} {positions : List (String × Nat)}
    (h : positions.Pairwise fun a b => a.1 = b.1 → a.2 < b.2) {name : String}
    {memory : RuleMemory} (hmemory : net.memory? name = some memory) {id : Int}
    (hunbound : ∀ n, (∀ i < n, net.PatternAt (name, i) → (name, i) ∉ positions) →
      ∀ i < n, ∀ stage, memory.stages[i]? = some stage → ∀ token ∈ stage.tokens, id ∉ token) :
    (net.dropEach (·.contains id) (net.firstPatterns positions)).memory? name
      = some { memory with stages := memory.stages.map (Stage.sparing (·.contains id)) } := by
  by_cases hfirst : ∃ i, (name, i) ∈ net.firstPatterns positions
  . obtain ⟨i, hi⟩ := hfirst
    have hmin := ((mem_firstPatterns h).mp hi).2.2
    rw [memory?_dropEach_of_mem (nodup_firstPatterns _ _) hi, hmemory, Option.map_some,
      Stage.drop_eq_map]
    intro j hj stage hstage token htoken
    have hnot := hunbound i (fun k hk hpattern hmem => by
      have := hmin k hmem hpattern
      omega) j hj stage hstage token htoken
    simpa using hnot
  . have hnone : ∀ i, net.PatternAt (name, i) → (name, i) ∉ positions :=
      fun i hpattern hmem => hfirst (exists_firstPattern h hmem hpattern)
    rw [memory?_dropEach_of_not_mem, hmemory, Option.some.injEq]
    . have hsame : memory.stages.map (Stage.sparing (·.contains id))
          = memory.stages.map fun stage => stage := by
        apply List.map_congr_left
        intro stage hstage
        obtain ⟨j, hj⟩ := List.mem_iff_getElem?.mp hstage
        apply Stage.sparing_eq_self
        intro token htoken
        have := hunbound (j + 1) (fun k _ => hnone k) j (by omega) stage hj token htoken
        simpa using this
      rw [hsame, List.map_id']
    . intro hmem
      obtain ⟨⟨other, i⟩, hi, rfl⟩ := List.mem_map.mp hmem
      exact hfirst ⟨i, hi⟩

theorem Sound.ascending_positions {net : Network} (h : net.Sound) (type : String) :
    (net.ruleSet.index.positionsOf type).Pairwise fun a b => a.1 = b.1 → a.2 < b.2 := by
  rw [h.index, TypeIndex.positionsOf_build]
  exact TypeIndex.ascending_placesOf type h.names

/-- The network after all nodes have taken notice that a fact has gone, and the keys reported. -/
def departure (fact : Fact) (net : Network) : Network × List Disturbance :=
  let positions := net.ruleSet.index.positionsOf fact.type
  let cleared := { net with working.alphas := net.working.alphas.map (·.remove fact.id) }
  let (uncounted, changed) := uncount fact.id positions cleared
  let dropped := uncounted.dropEach (·.contains fact.id) (uncounted.firstPatterns positions)
  ({ dropped with working.facts := without fact.id net.working.facts }, changed)

/-- All nodes have taken notice that a fact has gone. -/
structure Departed (id : Int) (net net' : Network) (changed : List Disturbance) : Prop where
  turned : Turned (Node.remove id) (!·.contains id) net net'
  facts : net'.working.facts = without id net.working.facts
  fired : net'.fired = net.fired
  changed : ∀ name memory, net.memory? name = some memory → ∀ position key,
    (⟨name, position, key⟩ : Disturbance) ∈ changed
      ↔ ∃ stage, memory.stages[position]? = some stage ∧ (stage.node.remove id).2 = some key

theorem Sound.place_of_member {net : Network} (h : net.Sound) {name : String}
    {memory : RuleMemory} (hmemory : net.memory? name = some memory) {id : Int} {type : String}
    (htype : ∀ fact ∈ net.working.facts, fact.id = id → fact.type = type) {i : Nat}
    {stage : Stage} (hstage : memory.stages[i]? = some stage) {alpha : Nat}
    (hnode : stage.node = .pattern alpha) (hmem : id ∈ net.working.members alpha) :
    (name, i) ∈ net.ruleSet.index.positionsOf type := by
  rw [WorkingMemory.mem_members_iff h.alphas] at hmem
  obtain ⟨filter, hfilter, fact, hfact, hid, hadmits⟩ := hmem
  rw [List.getElem?_map, Option.map_eq_some_iff] at hfilter
  obtain ⟨found, hfound, rfl⟩ := hfilter
  rw [← htype fact hfact hid]
  exact h.place_of_admits hmemory hstage hnode hfound hadmits

/-- The shared memories have taken notice that a fact goes. -/
structure Forgotten (id : Int) (net ready : Network) : Prop where
  ruleSet : ready.ruleSet = net.ruleSet
  memories : ready.memories = net.memories
  fired : ready.fired = net.fired
  agenda : ready.agenda = net.agenda
  serial : ready.serial = net.serial
  facts : ready.working.facts = net.working.facts
  alphas : ready.working.alphas = net.working.alphas.map (·.remove id)

theorem forgotten (net : Network) (id : Int) : Forgotten id net
    { net with working.alphas := net.working.alphas.map (·.remove id) } :=
  ⟨rfl, rfl, rfl, rfl, rfl, rfl, rfl⟩

namespace Forgotten

theorem memory? {id : Int} {net ready : Network} (h : Forgotten id net ready) (name : String) :
    ready.memory? name = net.memory? name := by
  unfold Network.memory?
  rw [h.memories]

variable {fact : Fact} {net ready net' : Network} {changed : List Disturbance}
  (hf : Forgotten fact.id net ready) (h : net.Sound)
  (htype : ∀ other ∈ net.working.facts, other.id = fact.id → other.type = fact.type)
  (ht : Touched (Node.remove fact.id) (net.ruleSet.index.positionsOf fact.type) ready net' changed)

include hf h htype

theorem idle {name : String} {memory : RuleMemory} (hmemory : ready.memory? name = some memory) :
    ∀ i stage, memory.stages[i]? = some stage →
      (name, i) ∉ net.ruleSet.index.positionsOf fact.type →
        stage.node.remove fact.id = (stage.node, none) := by
  intro i stage
  rw [hf.memory?] at hmemory
  exact h.idle_remove hmemory htype

include ht

theorem memory?_dropFirst (name : String) :
    (net'.dropEach (·.contains fact.id)
      (net'.firstPatterns (net.ruleSet.index.positionsOf fact.type))).memory? name
        = (net.memory? name).map fun memory => { memory with
            stages := memory.stages.map (Stage.turn (Node.remove fact.id) (!·.contains fact.id)) } := by
  cases hfound : net.memory? name with
  | none =>
    obtain ⟨-, -, -, hrules⟩ := net'.frame_dropEach (·.contains fact.id)
      (net'.firstPatterns (net.ruleSet.index.positionsOf fact.type))
    have hsome := isSome_memory? (net'.dropEach (·.contains fact.id)
      (net'.firstPatterns (net.ruleSet.index.positionsOf fact.type))) name
    rw [hrules, ht.rules, ← isSome_memory?, hf.memory?, hfound] at hsome
    simpa using hsome
  | some memory =>
    have hready := hfound
    rw [← hf.memory?] at hready
    have hmemory := ht.memory?_of_idle hready (hf.idle h htype hready)
    rw [Network.memory?_dropFirst (h.ascending_positions fact.type) hmemory, List.map_map]
    . rfl
    . -- A token that holds the fact has bound it at a pattern that the index lists.
      intro n hnone i hi stage' hstage'
      rw [List.getElem?_map, Option.map_eq_some_iff] at hstage'
      obtain ⟨stage, hstage, rfl⟩ := hstage'
      apply (h.grounded name memory hfound).unbound (by simp) _ i hi stage hstage
      intro j hj found hat alpha hnode hmem
      apply hnone j hj _ (h.place_of_member hfound htype hat hnode hmem)
      refine ⟨found.touch (Node.remove fact.id), ?_, ?_⟩
      . rw [stage?_eq hmemory, List.getElem?_map, hat]
        rfl
      . simp [Stage.touch, hnode, Node.remove, Node.isPattern]

theorem departed : Departed fact.id net
    { net'.dropEach (·.contains fact.id)
        (net'.firstPatterns (net.ruleSet.index.positionsOf fact.type)) with
      working.facts := without fact.id net.working.facts } changed := by
  obtain ⟨hruleSet, hworking, hfired, hrules⟩ := net'.frame_dropEach (·.contains fact.id)
    (net'.firstPatterns (net.ruleSet.index.positionsOf fact.type))
  have halphas := (congrArg (·.alphas) (hworking.trans ht.working)).trans hf.alphas
  refine ⟨⟨?_, ?_, ?_, distinct_without h.distinct fact.id, ?_, ?_⟩, rfl, ?_, ?_⟩
  . exact (hruleSet.trans ht.ruleSet).trans hf.ruleSet
  . exact (hrules.trans ht.rules).trans (congrArg _ hf.memories)
  . simp only at halphas ⊢
    rw [halphas, List.map_map]
    rfl
  . simp only at halphas ⊢
    rw [halphas, List.forall_mem_map]
    exact fun alpha halpha => AlphaMemory.tracks_remove (h.alphas alpha halpha) fact.id
  . exact hf.memory?_dropFirst h htype ht
  . exact (hfired.trans ht.fired).trans hf.fired
  . intro name memory hmemory
    rw [← hf.memory?] at hmemory
    exact ht.mem_changed_of_idle hmemory (hf.idle h htype hmemory)

end Forgotten

theorem departed {net : Network} (h : net.Sound) {fact : Fact}
    (htype : ∀ other ∈ net.working.facts, other.id = fact.id → other.type = fact.type) :
    Departed fact.id net (net.departure fact).1 (net.departure fact).2 := by
  unfold departure
  have htouched := touched_uncount fact.id
    { net with working.alphas := net.working.alphas.map (·.remove fact.id) }
    (h.nodup_positions fact.type)
  exact (forgotten net fact.id).departed h htype htouched

theorem retract_eq {net : Network} (h : net.Sound) (fact : Fact) :
    net.retract fact
      = if Unused fact.id net.working.facts then
          ((net.departure fact).1, some (.missingKey (.int fact.id)))
        else Update.each (Task.run fact.id) (tasksOf [] (net.departure fact).2)
          (net.departure fact).1 := by
  rw [each_tasksOf]
  unfold retract departure
  have htouched := touched_uncount fact.id
    { net with working.alphas := net.working.alphas.map (·.remove fact.id) } (h.nodup_positions fact.type)
  dsimp only
  generalize uncount fact.id (net.ruleSet.index.positionsOf fact.type)
    { net with working.alphas := net.working.alphas.map (·.remove fact.id) } = found at htouched
  obtain ⟨uncounted, changed⟩ := found
  dsimp only at htouched ⊢
  have hframe := uncounted.frame_dropEach (·.contains fact.id)
    (uncounted.firstPatterns (net.ruleSet.index.positionsOf fact.type))
  unfold dropEach at hframe ⊢
  -- The facts are looked at behind the drops, which leave them alone.
  have hfacts : (List.foldl (fun net (place : String × Nat) =>
      net.drop place.1 place.2 (·.contains fact.id)) uncounted
        (uncounted.firstPatterns (net.ruleSet.index.positionsOf fact.type))).working.facts
      = net.working.facts := by
    rw [hframe.2.1, htouched.working]
  rw [hfacts]
  by_cases hany : net.working.facts.any (·.id = fact.id) = true
  . have hnot : ¬ Unused fact.id net.working.facts := by
      intro hunused
      obtain ⟨other, hother, hid⟩ := List.any_eq_true.mp hany
      exact hunused other hother (by simpa using hid)
    rw [if_pos hany, if_neg hnot]
    rfl
  . have hunused : Unused fact.id net.working.facts := by
      intro other hother hid
      apply hany
      rw [List.any_eq_true]
      exact ⟨other, hother, by simpa using hid⟩
    rw [if_neg hany, if_pos hunused, without_of_unused hunused, ← hfacts]

namespace Departed

variable {net net' : Network} {id : Int} {changed : List Disturbance}

theorem mem_members_iff (h : net.Sound) (hd : Departed id net net' changed) (alpha : Nat)
    (other : Int) :
    other ∈ net'.working.members alpha ↔ other ∈ net.working.members alpha ∧ other ≠ id := by
  rw [WorkingMemory.mem_members_iff hd.turned.alphas, hd.turned.filters, hd.facts,
    WorkingMemory.mem_members_iff h.alphas]
  simp only [without, List.mem_filter, decide_eq_true_eq]
  constructor
  . rintro ⟨filter, hfilter, fact, ⟨hfact, hne⟩, rfl, hadmits⟩
    exact ⟨⟨filter, hfilter, fact, hfact, rfl, hadmits⟩, hne⟩
  . rintro ⟨⟨filter, hfilter, fact, hfact, rfl, hadmits⟩, hne⟩
    exact ⟨filter, hfilter, fact, ⟨hfact, hne⟩, rfl, hadmits⟩

theorem keep_append {token : Token} (htoken : (!token.contains id) = true) {other : Int}
    (hne : other ≠ id) : (!(token ++ [other]).contains id) = true := by
  simp only [Bool.not_eq_true', ← Bool.not_eq_true, List.contains_iff_mem, List.mem_append,
    List.mem_singleton] at htoken ⊢
  rintro (hmem | rfl)
  . exact htoken hmem
  . exact hne rfl

theorem sound (h : net.Sound) (hd : Departed id net net' changed) : net'.Sound := by
  apply h.turned hd.turned (by simp)
  . intro node condition himplements _ htracks
    rw [hd.facts]
    exact ⟨Node.implements_remove himplements htracks h.distinct id,
      (Node.tracks_remove htracks h.distinct id).1⟩
  . intro node token child hchild hkeep
    cases node with
    | pattern alpha =>
      obtain ⟨other, hmem, hnew, rfl⟩ := hchild
      simp only [Bool.not_eq_true', ← Bool.not_eq_true, List.contains_iff_mem, List.mem_append,
        List.mem_singleton, not_or] at hkeep ⊢
      refine ⟨hkeep.1, other, ?_, hnew, rfl⟩
      rw [hd.mem_members_iff h]
      exact ⟨hmem, fun heq => hkeep.2 heq.symm⟩
    | join | negation | aggregate =>
      obtain rfl := (Node.child_iff rfl).mp hchild
      exact ⟨hkeep, (Node.child_iff rfl).mpr rfl⟩

theorem settled (h : net.Sound) (hd : Departed id net net' changed) {name : String}
    (hsettled : net.Settled name fun _ _ => False) :
    net'.Settled name (net'.InDoubt id (tasksOf [] changed) name) := by
  apply hsettled.turned h hd.turned (by simp)
  . intro token hlive hkeep vars
    apply WorkingMemory.bindings_congr
    intro other hother
    obtain ⟨old, hold, rfl⟩ := hlive other hother
    rw [WorkingMemory.find_eq h.distinct hold]
    apply WorkingMemory.find_eq hd.turned.distinct
    rw [hd.facts]
    simp only [without, List.mem_filter, decide_eq_true_eq]
    refine ⟨hold, ?_⟩
    rintro rfl
    simp [hother] at hkeep
  . intro node htracks _
    exact (Node.tracks_remove htracks h.distinct id).2
  . intro memory hmemory i stage hstage key hkey
    apply List.mem_append_right
    exact List.mem_map.mpr ⟨_, (hd.changed name memory hmemory i key).mpr ⟨stage, hstage, hkey⟩, rfl⟩
  . intro memory hmemory i stage hstage alpha hnode other hmem
    obtain ⟨hold, hne⟩ := (hd.mem_members_iff h alpha other).mp hmem
    exact .inl ⟨hold, fun token hkeep => keep_append hkeep hne⟩

theorem exact (h : net.Sound) (hd : Departed id net net' changed) {name : String}
    (hexact : net.Exact name) : net'.Exact name := by
  intro memory' hmemory' stage' hstage'
  obtain ⟨memory, hmemory, rfl⟩ := hd.turned.exists_old hmemory'
  obtain ⟨stage, hstage, rfl⟩ := List.mem_map.mp hstage'
  exact Node.exact_remove (h.nodes name memory hmemory stage hstage)
    (hexact memory hmemory stage hstage) h.distinct id

theorem suits (h : net.Sound) (hd : Departed id net net' changed) :
    ∀ task ∈ tasksOf [] changed, task.Suits net' := by
  intro task htask
  rw [tasksOf, List.map_nil, List.nil_append] at htask
  obtain ⟨d, hmem, rfl⟩ := List.mem_map.mp htask
  intro stage' hstage'
  obtain ⟨memory', hmemory', hat'⟩ := exists_of_stage? hstage'
  obtain ⟨memory, hmemory, rfl⟩ := hd.turned.exists_old hmemory'
  obtain ⟨stage, hat, hreport⟩ := (hd.changed d.rule memory hmemory d.position d.key).mp hmem
  simp only [List.getElem?_map, hat, Option.map_some, Option.some.injEq] at hat'
  rw [← hat']
  cases hnode : stage.node with
  | pattern | join => simp [hnode, Node.remove] at hreport
  | negation | aggregate =>
    have hfollows := (Node.tracks_remove
      (h.nodes d.rule memory hmemory stage (List.mem_of_getElem? hat)) h.distinct id).2
    simp only [Stage.turn]
    rw [Node.isPattern_of_follows hfollows, hnode]
    rfl

end Departed
end Network
end ForwardChaining
