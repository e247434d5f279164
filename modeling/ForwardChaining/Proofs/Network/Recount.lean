import ForwardChaining.Proofs.Network.Equivalence

/-!
This module contains what is left of a history in the memories of a network whose changes were all followed
without a fault: what a recount of the facts that are there gives, and nothing else. So two histories that
leave the same facts leave memories that are alike, and when all facts have gone, the network is as it was
before any came.
-/

namespace ForwardChaining

theorem Key.Table.eq_nil {entries : List (Key × α)} (h : Key.Table entries)
    (hnone : ∀ key : Key, key.Frozen → Key.find? key entries = none) : entries = [] := by
  cases entries with
  | nil => rfl
  | cons entry entries =>
    have hkey := h.head
    have hfound := hnone entry.1 hkey
    rw [Key.find?, if_pos (hkey.same_refl)] at hfound
    cases hfound

theorem forall₂_of_map_eq {f : α → β} {as bs : List α} (h : bs.map f = as.map f) {R : α → α → Prop}
    (hR : ∀ a ∈ as, ∀ b ∈ bs, f b = f a → R a b) : List.Forall₂ R as bs := by
  induction as generalizing bs with
  | nil =>
    rw [List.map_eq_nil_iff.mp h]
    exact .nil
  | cons a as ih =>
    cases bs with
    | nil => cases h
    | cons b bs =>
      obtain ⟨hhead, htail⟩ := List.cons.inj h
      refine .cons (hR a (by simp) b (by simp) hhead) (ih htail ?_)
      intro a' ha b' hb
      exact hR a' (List.mem_cons_of_mem a ha) b' (List.mem_cons_of_mem b hb)

/-- A number that is not noted when it is zero. -/
def noted (n : Nat) : Option Nat :=
  if n = 0 then none else some n

/-! ### Memories of negations -/

namespace NegationMemory

/-- The number of facts that the filter accepts under a key. -/
def acceptedUnder (memory : NegationMemory) (key : Key) (facts : List Fact) : Nat :=
  facts.countP fun fact => memory.filter.admits fact && Key.same (factKey memory.keys fact) key

/-- The memory has a count for exactly the keys under which it accepts a fact: the number of such facts. -/
structure Recounts (memory : NegationMemory) (facts : List Fact) : Prop where
  members : memory.members = Members.ofFacts memory.entry facts
  table : Key.Table memory.counts
  counts : ∀ key : Key, key.Frozen →
    Key.find? key memory.counts = noted (memory.acceptedUnder key facts)

/-- The memories belong to the same condition and hold the same, in whatever order it came. -/
structure Alike (memory memory' : NegationMemory) : Prop where
  filter : memory'.filter = memory.filter
  keys : memory'.keys = memory.keys
  members : memory'.members.Perm memory.members
  counts : ∀ key : Key, key.Frozen → Key.find? key memory'.counts = Key.find? key memory.counts

theorem count_eq_acceptedUnder {memory : NegationMemory} {facts : List Fact} (h : memory.Tracks facts)
    {key : Key} (hkey : key.Frozen) : memory.count key = memory.acceptedUnder key facts := by
  rw [h.count key hkey, h.members, Members.ofFacts, List.countP_filterMap, acceptedUnder]
  congr
  funext fact
  cases hadmits : memory.filter.admits fact <;> simp [entry, hadmits]

theorem recounts_of_tracks {memory : NegationMemory} {facts : List Fact} (h : memory.Tracks facts) :
    memory.Recounts facts := by
  refine ⟨h.members, h.table, ?_⟩
  intro key hkey
  rw [← count_eq_acceptedUnder h hkey, count, noted]
  cases hfind : Key.find? key memory.counts with
  | none => rfl
  | some n =>
    have hpos := h.positive key hkey n hfind
    rw [Option.getD_some, if_neg (Nat.pos_iff_ne_zero.mp hpos)]

theorem Recounts.alike {memory memory' : NegationMemory} {facts facts' : List Fact}
    (h : memory.Recounts facts) (h' : memory'.Recounts facts') (hperm : facts'.Perm facts)
    (hfilter : memory'.filter = memory.filter) (hkeys : memory'.keys = memory.keys) :
    memory.Alike memory' := by
  refine ⟨hfilter, hkeys, ?_, ?_⟩
  . have hentry : memory'.entry = memory.entry := by
      funext fact
      rw [entry, entry, hfilter, hkeys]
    rw [h.members, h'.members, hentry]
    exact hperm.filterMap _
  . intro key hkey
    rw [h.counts key hkey, h'.counts key hkey, acceptedUnder, acceptedUnder, hfilter, hkeys,
      hperm.countP_eq]

theorem eq_of_no_facts {memory : NegationMemory} (h : memory.Recounts []) :
    memory = { filter := memory.filter, keys := memory.keys } := by
  have hcounts : memory.counts = [] := h.table.eq_nil fun key hkey => h.counts key hkey
  have hmembers : memory.members = [] := h.members
  cases memory
  simp only at hcounts hmembers
  rw [hcounts, hmembers]

end NegationMemory

/-! ### Memories of aggregates -/

namespace AggregateMemory

/-- What the facts contribute to the group of a key. -/
def contributedUnder (memory : AggregateMemory) (key : Key) (facts : List Fact) : List Value :=
  contributionsOf memory.filter memory.keys memory.test key facts

/--
The memory has a group for exactly the keys under which a fact contributes something. The group counts
these facts, and it holds the numbers that they contribute.
-/
structure Recounts (memory : AggregateMemory) (facts : List Fact) : Prop where
  members : memory.members = Members.ofFacts memory.entry facts
  table : Key.Table memory.groups
  counts : ∀ key : Key, key.Frozen →
    (Key.find? key memory.groups).map (·.count) = noted (memory.contributedUnder key facts).length
  tallies : ∀ key : Key, key.Frozen → ∀ group, Key.find? key memory.groups = some group →
    (group.tally.elements.map Value.sense?).Perm
      ((memory.contributedUnder key facts).map Value.sense?)

/-- The groups count alike and hold equal numbers, in whatever order they came. -/
def GroupsAlike : Option Group → Option Group → Prop
  | none, none => True
  | some group, some group' => group'.count = group.count
    ∧ (group'.tally.elements.map Value.sense?).Perm (group.tally.elements.map Value.sense?)
  | _, _ => False

/-- The memories belong to the same condition and hold the same, in whatever order it came. -/
structure Alike (memory memory' : AggregateMemory) : Prop where
  filter : memory'.filter = memory.filter
  keys : memory'.keys = memory.keys
  test : memory'.test = memory.test
  members : memory'.members.Perm memory.members
  groups : ∀ key : Key, key.Frozen →
    GroupsAlike (Key.find? key memory.groups) (Key.find? key memory'.groups)

theorem recounts_of_tracks {memory : AggregateMemory} {facts : List Fact} (h : memory.Tracks facts)
    (htallied : ∀ key : Key, key.Frozen → memory.Tallied key Value.IsNumber) :
    memory.Recounts facts := by
  refine ⟨h.members, h.table, ?_, ?_⟩
  . intro key hkey
    have hcounted := h.counted key hkey
    rw [contributions_eq h, ← contributedUnder] at hcounted
    rw [noted]
    cases hfind : Key.find? key memory.groups with
    | none =>
      rw [hfind] at hcounted
      rw [show memory.contributedUnder key facts = [] from hcounted]
      rfl
    | some group =>
      rw [hfind] at hcounted
      rw [Option.map_some, ← hcounted.1, if_neg (Nat.pos_iff_ne_zero.mp hcounted.2)]
  . intro key hkey group hgroup
    rw [contributedUnder, ← contributions_eq h]
    exact (htallied key hkey group hgroup).2

theorem Recounts.alike {memory memory' : AggregateMemory} {facts facts' : List Fact}
    (h : memory.Recounts facts) (h' : memory'.Recounts facts') (hperm : facts'.Perm facts)
    (hfilter : memory'.filter = memory.filter) (hkeys : memory'.keys = memory.keys)
    (htest : memory'.test = memory.test) : memory.Alike memory' := by
  refine ⟨hfilter, hkeys, htest, ?_, ?_⟩
  . have hentry : memory'.entry = memory.entry := by
      funext fact
      rw [entry, entry, hfilter, hkeys, htest]
    rw [h.members, h'.members, hentry]
    exact hperm.filterMap _
  . intro key hkey
    have hcontributed :
        (memory'.contributedUnder key facts').Perm (memory.contributedUnder key facts) := by
      rw [contributedUnder, contributedUnder, hfilter, hkeys, htest]
      exact hperm.filterMap _
    have hcounts := h.counts key hkey
    have hcounts' := h'.counts key hkey
    rw [hcontributed.length_eq, ← hcounts] at hcounts'
    cases hfind : Key.find? key memory.groups with
    | none =>
      rw [hfind, Option.map_none, Option.map_eq_none_iff] at hcounts'
      rw [hcounts']
      trivial
    | some group =>
      rw [hfind, Option.map_some, Option.map_eq_some_iff] at hcounts'
      obtain ⟨group', hfind', hcount⟩ := hcounts'
      rw [hfind']
      refine ⟨hcount, ?_⟩
      exact (h'.tallies key hkey group' hfind').trans
        ((hcontributed.map _).trans (h.tallies key hkey group hfind).symm)

theorem eq_of_no_facts {memory : AggregateMemory} (h : memory.Recounts []) :
    memory = { filter := memory.filter, keys := memory.keys, test := memory.test } := by
  have hgroups : memory.groups = [] := by
    apply h.table.eq_nil
    intro key hkey
    exact Option.map_eq_none_iff.mp (h.counts key hkey)
  have hmembers : memory.members = [] := h.members
  cases memory
  simp only at hgroups hmembers
  rw [hgroups, hmembers]

end AggregateMemory

/-! ### Nodes -/

namespace Node

/-- The memory of the node, if it has one, holds what a recount of the facts gives. -/
def Recounts (facts : List Fact) : Node → Prop
  | .negation memory => memory.Recounts facts
  | .aggregate memory => memory.Recounts facts
  | _ => True

/-- The nodes belong to the same condition, and their memories are alike. -/
def Alike : Node → Node → Prop
  | .pattern alpha, .pattern alpha' => alpha' = alpha
  | .join across, .join across' => across' = across
  | .negation memory, .negation memory' => memory.Alike memory'
  | .aggregate memory, .aggregate memory' => memory.Alike memory'
  | _, _ => False

/-- The node with nothing in its memory. -/
def emptied : Node → Node
  | .negation memory => .negation { filter := memory.filter, keys := memory.keys }
  | .aggregate memory =>
    .aggregate { filter := memory.filter, keys := memory.keys, test := memory.test }
  | node => node

/-- The groups of an aggregate hold the numbers that are contributed to them. -/
def Tallied : Node → Prop
  | .aggregate memory => ∀ key : Key, key.Frozen → memory.Tallied key Value.IsNumber
  | _ => True

theorem recounts_of_tracks {node : Node} {facts : List Fact} (h : node.Tracks facts)
    (htallied : node.Tallied) : node.Recounts facts := by
  cases node with
  | pattern | join => trivial
  | negation memory => exact NegationMemory.recounts_of_tracks h
  | aggregate memory => exact AggregateMemory.recounts_of_tracks h htallied

theorem Recounts.alike {node node' : Node} {facts facts' : List Fact} (h : node.Recounts facts)
    (h' : node'.Recounts facts') (hperm : facts'.Perm facts) (hempty : node'.emptied = node.emptied) :
    node.Alike node' := by
  cases node <;> cases node' <;> try cases hempty
  case pattern => exact rfl
  case join => exact rfl
  case negation memory memory' =>
    simp only [emptied, negation.injEq, NegationMemory.mk.injEq, and_true] at hempty
    exact NegationMemory.Recounts.alike h h' hperm hempty.1 hempty.2
  case aggregate memory memory' =>
    simp only [emptied, aggregate.injEq, AggregateMemory.mk.injEq, and_true] at hempty
    exact AggregateMemory.Recounts.alike h h' hperm hempty.1 hempty.2.1 hempty.2.2

theorem eq_emptied_of_no_facts {node : Node} (h : node.Recounts []) : node = node.emptied := by
  cases node with
  | pattern | join => rfl
  | negation memory => exact congrArg negation (NegationMemory.eq_of_no_facts h)
  | aggregate memory => exact congrArg aggregate (AggregateMemory.eq_of_no_facts h)

/-- What facts that come and go leave as it is, as long as the node is in step with them. -/
structure Lasting (P : Node → Prop) : Prop where
  counted : ∀ {node facts fact}, P node → node.Tracks facts → node.Safe → Unused fact.id facts →
    P (node.counted fact).1
  remove : ∀ {node facts}, P node → node.Tracks facts → Distinct facts → ∀ id,
    P (node.remove id).1

theorem tallied_of_no_facts {node : Node} (h : node.Tracks []) : node.Tallied := by
  cases node with
  | pattern | join | negation => trivial
  | aggregate memory =>
    intro key hkey group hgroup
    have hcounted := h.counted key hkey
    rw [hgroup, h.members] at hcounted
    exact absurd hcounted.2 (hcounted.1 ▸ Nat.lt_irrefl 0)

theorem lasting_tallied : Lasting Tallied := by
  constructor
  . intro node facts fact htallied h hsafe hfresh
    cases node with
    | pattern | join => trivial
    | negation memory =>
      rw [counted_negation (NegationMemory.outcome_add_of_accepts (FactFilter.accepts_eq hsafe fact))]
      trivial
    | aggregate memory =>
      rw [counted_aggregate (AggregateMemory.outcome_add hsafe fact)]
      cases hentry : memory.entry fact with
      | none => exact htallied
      | some found =>
        have hx := AggregateTest.contribution_number (AggregateMemory.eq_of_entry hentry).2
        intro key hkey
        exact AggregateMemory.tallied_folded h hfresh (AggregateMemory.frozen_of_entry hentry) hkey hx
          (fun _ => hx) (htallied key hkey)
  . intro node facts htallied h hdistinct id
    cases node with
    | pattern | join | negation => trivial
    | aggregate memory =>
      intro key hkey
      exact AggregateMemory.tallied_remove h hdistinct id hkey (htallied key hkey)

theorem lasting_emptied (Q : Node → Prop) : Lasting fun node => Q node.emptied := by
  constructor
  . intro node facts fact hempty h hsafe hfresh
    cases node with
    | pattern | join => exact hempty
    | negation memory =>
      obtain ⟨memory', reported, hok, hfilter, hkeys, -⟩ := NegationMemory.tracks_add h hsafe hfresh
      rw [counted_negation hok]
      simp only [emptied, hfilter, hkeys]
      exact hempty
    | aggregate memory =>
      rw [counted_aggregate (AggregateMemory.outcome_add hsafe fact)]
      cases memory.entry fact <;> exact hempty
  . intro node facts hempty h hdistinct id
    cases node with
    | pattern | join => exact hempty
    | negation memory =>
      obtain ⟨hfilter, hkeys, -⟩ := NegationMemory.tracks_remove h hdistinct id
      simp only [remove, emptied, hfilter, hkeys]
      exact hempty
    | aggregate memory =>
      obtain ⟨hfilter, hkeys, htest, -⟩ := AggregateMemory.tracks_remove h hdistinct id
      simp only [remove, emptied, hfilter, hkeys, htest]
      exact hempty

end Node

/-! ### Stages without facts -/

namespace Stage

theorem eq_of_nodup_of_mem_iff {a : α} {as bs : List α} (has : as.Nodup) (hbs : bs.Nodup)
    (hall : ∀ b ∈ as, b = a) (hiff : ∀ b, b ∈ bs ↔ b ∈ as) : bs = as := by
  have hperm : bs.Perm as := (List.perm_ext_iff_of_nodup hbs has).mpr hiff
  have hrepeated : as = List.replicate as.length a := List.eq_replicate_iff.mpr ⟨rfl, hall⟩
  rw [hrepeated] at hperm ⊢
  exact List.perm_replicate.mp hperm

theorem eq_of_settled {w : WorkingMemory} (hmembers : ∀ alpha, w.members alpha = [])
    {vars : List String} {parents : List Token} (hparents : ∀ token ∈ parents, token = [])
    {stages stages' : List Stage} (hnodes : stages'.map (·.node) = stages.map (·.node))
    (hground : AllGrounded w parents stages) (hground' : AllGrounded w parents stages')
    (hsettled : AllSettled w vars (fun _ _ => False) parents stages)
    (hsettled' : AllSettled w vars (fun _ _ => False) parents stages') : stages' = stages := by
  induction stages generalizing parents stages' with
  | nil => exact List.map_eq_nil_iff.mp hnodes
  | cons stage stages ih =>
    cases stages' with
    | nil => cases hnodes
    | cons stage' stages' =>
      rw [List.map_cons, List.map_cons, List.cons.injEq] at hnodes
      -- Without members no pattern extends a token, so the empty token is the only one.
      have hempty : ∀ token ∈ stage.tokens, token = [] := by
        intro child hchild
        obtain ⟨token, htoken, hof⟩ := hground.1.closed child hchild
        cases hnode : stage.node with
        | pattern alpha =>
          rw [hnode] at hof
          obtain ⟨id, hid, -⟩ := hof
          rw [hmembers alpha] at hid
          cases hid
        | join | negation | aggregate =>
          rw [hnode] at hof
          rw [show child = token from hof]
          exact hparents token htoken
      have htokens : stage'.tokens = stage.tokens := by
        apply eq_of_nodup_of_mem_iff hground.1.nodup hground'.1.nodup hempty
        intro token
        rw [Condition.mem_settled_iff hground.1 hsettled.1,
          Condition.mem_settled_iff hground'.1 hsettled'.1, hnodes.1]
      rw [List.cons.injEq]
      constructor
      . obtain ⟨node, tokens⟩ := stage
        obtain ⟨node', tokens'⟩ := stage'
        rw [Stage.mk.injEq]
        exact ⟨hnodes.1, htokens⟩
      . refine ih hempty hnodes.2 hground.2 ?_ hsettled.2 ?_
        . rw [← htokens]
          exact hground'.2
        . rw [← htokens]
          exact hsettled'.2

end Stage

namespace Network

/-! ### What changes leave as it is -/

/-- Something holds of the node of every condition. -/
def EachNode (net : Network) (P : String → Nat → Node → Prop) : Prop :=
  ∀ name memory, net.memory? name = some memory → ∀ i stage, memory.stages[i]? = some stage →
    P name i stage.node

namespace EachNode

variable {net net' : Network} {P : String → Nat → Node → Prop}

theorem keeps (h : net.EachNode P) (hkeeps : net.Keeps net') : net'.EachNode P := by
  intro name memory' hmemory' i stage' hstage'
  obtain ⟨memory, hmemory, -, hnodes⟩ := hkeeps.nodes name memory' hmemory'
  have hnode : (memory.stages.map (·.node))[i]? = some stage'.node := by
    rw [← hnodes, List.getElem?_map, hstage', Option.map_some]
  rw [List.getElem?_map, Option.map_eq_some_iff] at hnode
  obtain ⟨stage, hstage, heq⟩ := hnode
  rw [← heq]
  exact h name memory hmemory i stage hstage

theorem turned {f : Node → Node × Option Key} {keep : Token → Bool} (h : net.EachNode P)
    (hsound : net.Sound) (ht : Turned f keep net net')
    (hf : ∀ name i node, P name i node → node.Tracks net.working.facts → node.Safe →
      P name i (f node).1) : net'.EachNode P := by
  intro name memory' hmemory' i stage' hstage'
  obtain ⟨memory, hmemory, rfl⟩ := ht.exists_old hmemory'
  simp only [List.getElem?_map, Option.map_eq_some_iff] at hstage'
  obtain ⟨stage, hstage, rfl⟩ := hstage'
  obtain ⟨-, condition, -, himplements, hsafe⟩ := hsound.exists_condition hmemory hstage
  exact hf name i stage.node (h name memory hmemory i stage hstage)
    (hsound.nodes name memory hmemory stage (List.mem_of_getElem? hstage))
    (Node.safe_of_implements himplements hsafe)

section Lasting

variable (h : net.EachNode P) (hsound : net.Sound) (hlasting : ∀ name i, Node.Lasting (P name i))

include h hsound hlasting

theorem insert {fact : Fact} (hfresh : Unused fact.id net.working.facts) :
    (net.insert fact).1.EachNode P := by
  obtain ⟨ha, heq⟩ := arrived hsound hfresh
  rw [heq]
  obtain ⟨hkeeps, -⟩ := sound_tasks (ha.sound hsound hfresh) fact.id (ha.suits hsound hfresh)
  refine (h.turned hsound ha.turned ?_).keeps hkeeps
  intro name i node hnode htracks hsafe
  exact (hlasting name i).counted hnode htracks hsafe hfresh

theorem retract {fact : Fact}
    (htype : ∀ other ∈ net.working.facts, other.id = fact.id → other.type = fact.type) :
    (net.retract fact).1.EachNode P := by
  obtain ⟨hkeeps, -⟩ := keeps_retract hsound htype
  refine (h.turned hsound (departed hsound htype).turned ?_).keeps hkeeps
  intro name i node hnode htracks _
  exact (hlasting name i).remove hnode htracks hsound.distinct fact.id

theorem onChange {change : Change} (hadmissible : change.Admissible net.working.facts) :
    (net.onChange change).1.EachNode P := by
  cases change with
  | inserted fact => exact h.insert hsound hlasting hadmissible
  | retracted fact => exact h.retract hsound hlasting hadmissible
  | updated fact previous =>
    have hretract := h.retract hsound hlasting hadmissible.2.2
    obtain ⟨between, hreplaced, ⟨heq, hnext⟩ | ⟨fault, heq, hnext⟩⟩ :=
      onChange_updated hsound hadmissible
    . rw [heq] at hretract
      rw [hnext]
      exact EachNode.insert hretract hreplaced.sound hlasting hreplaced.fresh
    . rw [heq] at hretract
      rw [hnext]
      exact hretract

end Lasting
end EachNode

/-! ### Histories without a fault -/

/-- The changes are followed without a fault, one after the other. -/
def Quiet (net : Network) (changes : List Change) : Prop :=
  ∀ seen change more, seen ++ change :: more = changes →
    (listener change (listener.follow net seen)).2 = none

theorem quiet_cons {net : Network} {change : Change} {changes : List Change}
    (h : net.Quiet (change :: changes)) :
    (net.onChange change).2 = none ∧ (net.onChange change).1.Quiet changes := by
  refine ⟨h [] change changes rfl, ?_⟩
  intro seen next more heq
  exact h (change :: seen) next more (by rw [← heq]; rfl)

theorem quiet_of_append {net : Network} {changes more : List Change}
    (h : net.Quiet (changes ++ more)) : net.Quiet changes := by
  intro seen change rest heq
  apply h seen change (rest ++ more)
  rw [← heq, List.append_assoc, List.cons_append]

theorem quiet_of_regular {net : Network} (h : net.Faithful)
    (hpredicates : SharesPredicates net.ruleSet.rules) {changes : List Change}
    (hlegal : Change.Legal net.working.facts changes)
    (hregular : ∀ change ∈ changes, ∀ fact ∈ change.brings, fact.Regular net.ruleSet.rules) :
    net.Quiet changes := by
  rintro seen change more rfl
  rw [Change.legal_append] at hlegal
  rw [List.forall_mem_append, List.forall_mem_cons] at hregular
  obtain ⟨hfaithful, hsame, hreplay⟩ := faithful_follow h hpredicates hlegal.1 hregular.1
  obtain ⟨hadmissible, htakes, -⟩ := hlegal.2
  rw [← hreplay] at hadmissible htakes
  refine (finishes_onChange hfaithful hadmissible htakes ?_).1
  rw [hsame]
  exact hregular.2.1

section Finishes

variable {net : Network} (h : net.Sound)

include h

theorem leftByInsert_eq_nil {fact : Fact} (hfresh : Unused fact.id net.working.facts)
    (hok : (net.insert fact).2 = none) : net.leftByInsert fact = [] := by
  rw [(arrived h hfresh).2] at hok
  exact unfinished_eq_nil hok

theorem leftByRetract_eq_nil {fact : Fact} (hok : (net.retract fact).2 = none) :
    net.leftByRetract fact = [] := by
  rw [retract_eq h] at hok
  split at hok
  . cases hok
  . next hthere =>
    rw [leftByRetract, if_neg hthere]
    exact unfinished_eq_nil hok

theorem finishes_of_ok {change : Change} (hadmissible : change.Admissible net.working.facts)
    (hok : (net.onChange change).2 = none) (name : String) : net.Finishes name change := by
  cases change with
  | inserted fact => simp [Finishes, leftByInsert_eq_nil h hadmissible hok]
  | retracted fact => simp [Finishes, leftByRetract_eq_nil h hok]
  | updated fact previous =>
    obtain ⟨between, hreplaced, ⟨heq, hnext⟩ | ⟨fault, -, hnext⟩⟩ := onChange_updated h hadmissible
    . have hfirst : (net.retract previous).2 = none := by rw [heq]
      rw [hnext] at hok
      simp [Finishes, leftByRetract_eq_nil h hfirst, heq,
        leftByInsert_eq_nil hreplaced.sound hreplaced.fresh hok]
    . rw [hnext] at hok
      cases hok

end Finishes

/-- The network after changes that were followed without a fault, compared with how it was before them. -/
structure Intact (start net : Network) : Prop where
  sound : net.Sound
  settled : ∀ name, net.Settled name fun _ _ => False
  same : start.SameRules net
  tallied : net.EachNode fun _ _ node => node.Tallied
  emptied : net.EachNode fun name i node =>
    (start.stage? name i).map (·.node.emptied) = some node.emptied

theorem Intact.onChange {start net : Network} (h : start.Intact net) {change : Change}
    (hadmissible : change.Admissible net.working.facts) (hok : (net.onChange change).2 = none) :
    start.Intact (net.onChange change).1 := by
  obtain ⟨hsound, hsame⟩ := sound_onChange h.sound hadmissible
  refine ⟨hsound, ?_, h.same.trans hsame, ?_, ?_⟩
  . intro name
    exact settled_onChange h.sound hadmissible (h.settled name)
      (finishes_of_ok h.sound hadmissible hok name)
  . exact h.tallied.onChange h.sound (fun _ _ => Node.lasting_tallied) hadmissible
  . apply h.emptied.onChange h.sound _ hadmissible
    exact fun name i => Node.lasting_emptied fun node =>
      (start.stage? name i).map (·.node.emptied) = some node

theorem Intact.follow {start net : Network} (h : start.Intact net) {changes : List Change}
    (hlegal : Change.Legal net.working.facts changes) (hquiet : net.Quiet changes) :
    start.Intact (listener.follow net changes)
      ∧ (listener.follow net changes).working.facts = Change.replay net.working.facts changes := by
  induction changes generalizing net with
  | nil => exact ⟨h, rfl⟩
  | cons change changes ih =>
    obtain ⟨hadmissible, -, hlegal⟩ := hlegal
    obtain ⟨hok, hquiet⟩ := quiet_cons hquiet
    have hfacts := facts_onChange h.sound hadmissible hok
    rw [← hfacts] at hlegal
    have hrest := ih (h.onChange hadmissible hok) hlegal hquiet
    rw [hfacts] at hrest
    exact hrest

/-! ### Recounts -/

/--
The shared memories hold the identities of the facts that their filters accept, each once, and the
memories of the conditions of all rules hold what a recount of the facts gives.
-/
structure Recounts (net : Network) : Prop where
  rules : net.memories.map (·.rule) = net.ruleSet.rules
  implements : ∀ memory ∈ net.memories,
    List.Forall₂ (fun condition stage => stage.node.Implements net.working.alphas condition)
      memory.rule.conditions memory.stages
  alphas : ∀ alpha ∈ net.working.alphas, alpha.members.Nodup ∧ ∀ id, id ∈ alpha.members
    ↔ ∃ fact ∈ net.working.facts, fact.id = id ∧ alpha.filter.accepts fact = .ok true
  nodes : ∀ memory ∈ net.memories, ∀ stage ∈ memory.stages, stage.node.Recounts net.working.facts

/-- The memories of two networks are alike: they belong to the same conditions and hold the same. -/
structure Alike (net net' : Network) : Prop where
  alphas : List.Forall₂ (fun alpha alpha' => alpha'.filter = alpha.filter
    ∧ alpha'.members.Perm alpha.members) net.working.alphas net'.working.alphas
  memories : List.Forall₂ (fun memory memory' => memory'.rule = memory.rule
    ∧ List.Forall₂ (fun stage stage' => stage.node.Alike stage'.node) memory.stages memory'.stages)
    net.memories net'.memories

theorem Intact.recounts_of_memory {start net : Network} (h : start.Intact net) {name : String}
    {memory : RuleMemory} (hmemory : net.memory? name = some memory) {stage : Stage}
    (hstage : stage ∈ memory.stages) : stage.node.Recounts net.working.facts := by
  obtain ⟨i, hi⟩ := List.mem_iff_getElem?.mp hstage
  exact Node.recounts_of_tracks (h.sound.nodes name memory hmemory stage hstage)
    (h.tallied name memory hmemory i stage hi)

theorem Intact.recounts {start net : Network} (h : start.Intact net) : net.Recounts := by
  refine ⟨h.sound.rules, ?_, ?_, ?_⟩
  . intro memory hmemory
    exact h.sound.implements _ memory (memory?_of_mem h.sound hmemory)
  . intro alpha halpha
    have htracks := h.sound.alphas alpha halpha
    refine ⟨?_, ?_⟩
    . rw [htracks]
      exact (List.filter_sublist.map _).nodup h.sound.distinct
    . intro id
      rw [AlphaMemory.mem_of_tracks htracks]
      simp only [FactFilter.admits_iff]
  . intro memory hmemory stage hstage
    exact h.recounts_of_memory (memory?_of_mem h.sound hmemory) hstage

section NoFacts

variable {start net : Network} (h : start.Intact net) (hfacts : net.working.facts = [])

include h hfacts

theorem Intact.working_of_no_facts : net.working
    = { facts := [], alphas := (net.working.alphas.map (·.filter)).map fun filter => { filter } } := by
  have halphas : net.working.alphas
      = (net.working.alphas.map (·.filter)).map fun filter => { filter } := by
    rw [List.map_map]
    refine (List.map_id _).symm.trans (List.map_congr_left ?_)
    intro alpha halpha
    have htracks := h.sound.alphas alpha halpha
    rw [hfacts] at htracks
    obtain ⟨filter, members⟩ := alpha
    rw [show members = [] from htracks]
    rfl
  rw [← halphas, ← hfacts]

theorem Intact.members_of_no_facts (alpha : Nat) : net.working.members alpha = [] := by
  rw [List.eq_nil_iff_forall_not_mem]
  intro id hid
  obtain ⟨-, -, fact, hfact, -⟩ := (WorkingMemory.mem_members_iff h.sound.alphas alpha id).mp hid
  rw [hfacts] at hfact
  cases hfact

theorem Intact.nodes_of_no_facts {name : String} {memory : RuleMemory}
    (hmemory : net.memory? name = some memory) :
    memory.stages.map (·.node) = memory.stages.map (·.node.emptied) := by
  apply List.map_congr_left
  intro stage hstage
  have hrecounts := h.recounts_of_memory hmemory hstage
  rw [hfacts] at hrecounts
  exact Node.eq_emptied_of_no_facts hrecounts

end NoFacts

section Compared

variable {start net net' : Network} (h : start.Intact net) (h' : start.Intact net')

include h h'

theorem Intact.rules_eq : net'.memories.map (·.rule) = net.memories.map (·.rule) :=
  h'.same.rules.trans h.same.rules.symm

theorem Intact.filters_eq : net'.working.alphas.map (·.filter) = net.working.alphas.map (·.filter) :=
  h'.same.filters.trans h.same.filters.symm

theorem Intact.emptied_eq {name : String} {memory memory' : RuleMemory}
    (hmemory : net.memory? name = some memory) (hmemory' : net'.memory? name = some memory')
    (hrule : memory'.rule = memory.rule) :
    memory'.stages.map (·.node.emptied) = memory.stages.map (·.node.emptied) := by
  have hlength : memory'.stages.length = memory.stages.length := by
    rw [← (h.sound.implements name memory hmemory).length_eq,
      ← (h'.sound.implements name memory' hmemory').length_eq, hrule]
  apply List.ext_getElem
  . rw [List.length_map, List.length_map, hlength]
  . intro i hi' hi
    rw [List.length_map] at hi hi'
    have hnode := h.emptied name memory hmemory i _ (List.getElem?_eq_getElem hi)
    have hnode' := h'.emptied name memory' hmemory' i _ (List.getElem?_eq_getElem hi')
    rw [List.getElem_map, List.getElem_map]
    exact Option.some.inj (hnode'.symm.trans hnode)

theorem Intact.memories_forall₂ {R : RuleMemory → RuleMemory → Prop}
    (hR : ∀ name memory memory', net.memory? name = some memory → net'.memory? name = some memory' →
      memory'.rule = memory.rule → R memory memory') : List.Forall₂ R net.memories net'.memories := by
  apply forall₂_of_map_eq (h.rules_eq h')
  intro memory hmem memory' hmem' hrule
  have hmemory' := memory?_of_mem h'.sound hmem'
  rw [hrule] at hmemory'
  exact hR _ _ _ (memory?_of_mem h.sound hmem) hmemory' hrule

theorem Intact.alike (hperm : net'.working.facts.Perm net.working.facts) : net.Alike net' := by
  constructor
  . apply forall₂_of_map_eq (h.filters_eq h')
    intro alpha halpha alpha' halpha' hfilter
    refine ⟨hfilter, ?_⟩
    rw [h.sound.alphas alpha halpha, h'.sound.alphas alpha' halpha', hfilter]
    exact (hperm.filter _).map _
  . apply h.memories_forall₂ h'
    intro name memory memory' hmemory hmemory' hrule
    refine ⟨hrule, forall₂_of_map_eq (h.emptied_eq h' hmemory hmemory' hrule) ?_⟩
    intro stage hstage stage' hstage' hnode
    exact (h.recounts_of_memory hmemory hstage).alike (h'.recounts_of_memory hmemory' hstage') hperm
      hnode

theorem Intact.eq_of_no_facts (hfacts : net.working.facts = []) (hfacts' : net'.working.facts = []) :
    net'.working = net.working ∧ net'.memories = net.memories := by
  have hworking : net'.working = net.working := by
    rw [h.working_of_no_facts hfacts, h'.working_of_no_facts hfacts', h.filters_eq h']
  refine ⟨hworking, ?_⟩
  have hmemories : List.Forall₂ Eq net.memories net'.memories := by
    apply h.memories_forall₂ h'
    intro name memory memory' hmemory hmemory' hrule
    have hnodes : memory'.stages.map (·.node) = memory.stages.map (·.node) := by
      rw [h'.nodes_of_no_facts hfacts' hmemory', h.nodes_of_no_facts hfacts hmemory,
        h.emptied_eq h' hmemory hmemory' hrule]
    have hsettled' := h'.settled name memory' hmemory'
    have hground' := h'.sound.grounded name memory' hmemory'
    rw [hworking] at hsettled' hground'
    rw [hrule] at hsettled'
    have hstages := Stage.eq_of_settled (h.members_of_no_facts hfacts) (fun _ => List.mem_singleton.mp)
      hnodes (h.sound.grounded name memory hmemory) hground' (h.settled name memory hmemory) hsettled'
    cases memory
    cases memory'
    simp only at hrule hstages
    rw [hrule, hstages]
  exact (List.forall₂_eq_eq_eq ▸ hmemories).symm

end Compared

theorem Intact.start {net : Network} (hsound : net.Sound)
    (hsettled : ∀ name, net.Settled name fun _ _ => False) (hfacts : net.working.facts = []) :
    net.Intact net := by
  refine ⟨hsound, hsettled, ⟨rfl, rfl, rfl⟩, ?_, ?_⟩
  . intro name memory hmemory i stage hstage
    have htracks := hsound.nodes name memory hmemory stage (List.mem_of_getElem? hstage)
    rw [hfacts] at htracks
    exact Node.tallied_of_no_facts htracks
  . intro name memory hmemory i stage hstage
    rw [stage?_eq hmemory, hstage]
    rfl

end Network
end ForwardChaining
