import ForwardChaining.Network.Stage
import ForwardChaining.Proofs.Logged

/-!
This module contains the invariants of the stages of a rule and what taking tokens in and dropping
tokens does to them. A stage is grounded if it holds nothing but children of the tokens before it, and
it is settled if it holds exactly those children that its condition yields. While the consequences of a
change are worked off, some tokens are in doubt, and only the others have to be right.
-/

namespace ForwardChaining

namespace Node

/--
The tokens that can come out of a condition for a token: for a pattern those with one more member of
its memory, for any other condition the token itself.
-/
def Child (w : WorkingMemory) (token child : Token) : Node → Prop
  | .pattern alpha => ∃ id ∈ w.members alpha, id ∉ token ∧ child = token ++ [id]
  | _ => child = token

/-- A token comes out of the condition for a token. -/
def Yields (w : WorkingMemory) (vars : List String) (token child : Token) (node : Node) : Prop :=
  ∃ tokens, (node.advance w vars token).outcome = .ok tokens ∧ child ∈ tokens

/-- Does a token pass a condition that binds nothing? -/
def verdict (w : WorkingMemory) (vars : List String) (token : Token) : Node → Except Fault Bool
  | .pattern _ => .ok false
  | .join test => (w.bindings vars token).bind test.holds
  | .negation memory =>
    (w.bindings vars token).bind fun bindings =>
      (bindingKey memory.keys bindings).map fun key => !memory.blocked key
  | .aggregate memory =>
    (w.bindings vars token).bind fun bindings =>
      (bindingKey memory.keys bindings).bind memory.passes

theorem mem_extensions {token child : Token} {ids : List Int} :
    child ∈ extensions token ids ↔ ∃ id ∈ ids, id ∉ token ∧ child = token ++ [id] := by
  simp only [extensions, List.mem_map, List.mem_filter]
  constructor
  . rintro ⟨id, ⟨hmem, hnew⟩, rfl⟩
    exact ⟨id, hmem, by simpa using hnew, rfl⟩
  . rintro ⟨id, hmem, hnew, rfl⟩
    exact ⟨id, ⟨hmem, by simpa using hnew⟩, rfl⟩

theorem outcome_advance_pattern (w : WorkingMemory) (vars : List String) (token : Token)
    (alpha : Nat) :
    ((pattern alpha).advance w vars token).outcome = .ok (extensions token (w.members alpha)) :=
  rfl

theorem outcome_advance {node : Node} (h : node.isPattern = false) (w : WorkingMemory)
    (vars : List String) (token : Token) :
    (node.advance w vars token).outcome
      = (node.verdict w vars token).map fun passes => if passes then [token] else [] := by
  cases node with
  | pattern => cases h
  | join test =>
    simp only [advance, verdict, Logged.outcome_bind, Logged.outcome_monadLift]
    cases w.bindings vars token <;> rfl
  | negation memory =>
    simp only [advance, verdict, Logged.outcome_bind, Logged.outcome_monadLift]
    cases w.bindings vars token with
    | error => rfl
    | ok bindings =>
      simp only [Except.bind]
      cases bindingKey memory.keys bindings with
      | error => rfl
      | ok key =>
        simp only [Except.map, Logged.outcome_pure]
        cases memory.blocked key <;> rfl
  | aggregate memory =>
    simp only [advance, verdict, Logged.outcome_bind, Logged.outcome_monadLift]
    cases w.bindings vars token with
    | error => rfl
    | ok bindings =>
      simp only [Except.bind]
      cases bindingKey memory.keys bindings <;> rfl

theorem yields_pattern {w : WorkingMemory} {vars : List String} {token child : Token}
    {alpha : Nat} : (pattern alpha).Yields w vars token child ↔ (pattern alpha).Child w token child := by
  simp [Yields, Child, outcome_advance_pattern, mem_extensions]

theorem exists_of_isPattern {node : Node} (h : node.isPattern = true) :
    ∃ alpha, node = .pattern alpha := by
  cases node with
  | pattern alpha => exact ⟨alpha, rfl⟩
  | join | negation | aggregate => cases h

theorem yields_iff {node : Node} (h : node.isPattern = false) {w : WorkingMemory}
    {vars : List String} {token child : Token} :
    node.Yields w vars token child ↔ child = token ∧ node.verdict w vars token = .ok true := by
  rw [Yields, outcome_advance h]
  cases node.verdict w vars token with
  | error => simp [Except.map]
  | ok passes => cases passes <;> simp [Except.map]

theorem child_iff {node : Node} (h : node.isPattern = false) {w : WorkingMemory}
    {token child : Token} : node.Child w token child ↔ child = token := by
  cases node <;> simp_all [isPattern, Child]

theorem child_of_yields {w : WorkingMemory} {vars : List String} {token child : Token}
    {node : Node} (h : node.Yields w vars token child) : node.Child w token child := by
  cases node with
  | pattern => exact yields_pattern.mp h
  | join | negation | aggregate => exact ((yields_iff rfl).mp h).1

theorem child_unique {w : WorkingMemory} {a b child : Token} {node : Node}
    (ha : node.Child w a child) (hb : node.Child w b child) : a = b := by
  cases node with
  | pattern =>
    obtain ⟨i, -, -, rfl⟩ := ha
    obtain ⟨j, -, -, heq⟩ := hb
    exact (List.append_inj' heq rfl).1
  | join | negation | aggregate =>
    rw [← (child_iff rfl).mp ha]
    exact (child_iff rfl).mp hb

end Node

namespace Stage

/-- The stage holds only children of the tokens before it, each once. -/
structure Grounded (w : WorkingMemory) (parents : List Token) (stage : Stage) : Prop where
  nodup : stage.tokens.Nodup
  closed : ∀ child ∈ stage.tokens, ∃ token ∈ parents, stage.node.Child w token child

/-- Of the tokens that are not in doubt, the stage holds those that its condition yields. -/
def Settled (w : WorkingMemory) (vars : List String) (doubt : Token → Prop)
    (parents : List Token) (stage : Stage) : Prop :=
  ∀ token ∈ parents, ∀ child, stage.node.Child w token child → ¬ doubt child →
    (child ∈ stage.tokens ↔ stage.node.Yields w vars token child)

/-- The tokens behind the last stage. -/
def final (parents : List Token) : List Stage → List Token
  | [] => parents
  | stage :: stages => final stage.tokens stages

/-- All stages are grounded. -/
def AllGrounded (w : WorkingMemory) (parents : List Token) : List Stage → Prop
  | [] => True
  | stage :: stages => stage.Grounded w parents ∧ AllGrounded w stage.tokens stages

/-- All stages are settled, except for the tokens in doubt at each position. -/
def AllSettled (w : WorkingMemory) (vars : List String) (doubt : Nat → Token → Prop)
    (parents : List Token) : List Stage → Prop
  | [] => True
  | stage :: stages =>
    stage.Settled w vars (doubt 0) parents
      ∧ AllSettled w vars (fun i => doubt (i + 1)) stage.tokens stages

theorem complete_eq_final (stages : List Stage) : complete stages = final [[]] stages := by
  have hlast : ∀ (stages : List Stage) (first : Stage) (parents : List Token),
      complete (first :: stages) = final parents (first :: stages) := by
    intro stages
    induction stages with
    | nil => exact fun _ _ => rfl
    | cons next stages ih =>
      intro first parents
      rw [final, ← ih next first.tokens, complete, complete, List.getLast?_cons_cons]
  cases stages with
  | nil => rfl
  | cons first stages => exact hlast stages first [[]]

theorem parents_eq_final (position : Nat) (stages : List Stage) :
    parents position stages = final [[]] (stages.take position) :=
  complete_eq_final _

/-! ### Weaker assumptions -/

theorem Grounded.mono {w : WorkingMemory} {parents parents' : List Token} {stage : Stage}
    (hsub : parents ⊆ parents') (h : stage.Grounded w parents) : stage.Grounded w parents' := by
  refine ⟨h.nodup, ?_⟩
  intro child hchild
  obtain ⟨token, htoken, hof⟩ := h.closed child hchild
  exact ⟨token, hsub htoken, hof⟩

theorem AllGrounded.mono {w : WorkingMemory} {parents parents' : List Token} {stages : List Stage}
    (hsub : parents ⊆ parents') (h : AllGrounded w parents stages) :
    AllGrounded w parents' stages := by
  cases stages with
  | nil => trivial
  | cons stage stages => exact ⟨h.1.mono hsub, h.2⟩

theorem Settled.mono {w : WorkingMemory} {vars : List String} {doubt doubt' : Token → Prop}
    {parents : List Token} {stage : Stage} (hdoubt : ∀ token, doubt token → doubt' token)
    (h : stage.Settled w vars doubt parents) : stage.Settled w vars doubt' parents := by
  intro token htoken child hchild hclear
  exact h token htoken child hchild fun hd => hclear (hdoubt child hd)

theorem AllSettled.mono {w : WorkingMemory} {vars : List String} {doubt doubt' : Nat → Token → Prop}
    {parents : List Token} {stages : List Stage}
    (hdoubt : ∀ i token, doubt i token → doubt' i token)
    (h : AllSettled w vars doubt parents stages) : AllSettled w vars doubt' parents stages := by
  induction stages generalizing doubt doubt' parents with
  | nil => trivial
  | cons stage stages ih =>
    refine ⟨h.1.mono (hdoubt 0), ?_⟩
    apply ih _ h.2
    intro i
    exact hdoubt (i + 1)

/-! ### Taking tokens in -/

theorem nodup_eraseDups [BEq α] [LawfulBEq α] : (as : List α) → as.eraseDups.Nodup
  | [] => by simp
  | a :: as => by
    rw [List.eraseDups_cons, List.nodup_cons]
    refine ⟨?_, nodup_eraseDups _⟩
    simp
termination_by as => as.length
decreasing_by
  have := List.length_filter_le (fun b => !b == a) as
  simp only [List.length_cons]
  omega

theorem node_merge (stage : Stage) (tokens : List Token) :
    (stage.merge tokens).1.node = stage.node :=
  rfl

theorem tokens_merge (stage : Stage) (tokens : List Token) :
    (stage.merge tokens).1.tokens = stage.tokens ++ (stage.merge tokens).2 :=
  rfl

theorem mem_merge {stage : Stage} {tokens : List Token} {token : Token} :
    token ∈ (stage.merge tokens).2 ↔ token ∈ tokens ∧ token ∉ stage.tokens := by
  simp [merge]

theorem Grounded.merge {w : WorkingMemory} {parents tokens : List Token} {stage : Stage}
    (h : stage.Grounded w parents)
    (hof : ∀ child ∈ tokens, ∃ token ∈ parents, stage.node.Child w token child) :
    (stage.merge tokens).1.Grounded w parents := by
  constructor
  . rw [tokens_merge, List.nodup_append]
    refine ⟨h.nodup, nodup_eraseDups _, ?_⟩
    intro old hold new hnew heq
    rw [heq] at hold
    exact (mem_merge.mp hnew).2 hold
  . intro child hchild
    rw [tokens_merge, List.mem_append] at hchild
    rcases hchild with hold | hnew
    . exact h.closed child hold
    . exact hof child (mem_merge.mp hnew).1

theorem Settled.merge {w : WorkingMemory} {vars : List String} {doubt : Token → Prop}
    {parents fresh next : List Token} {stage : Stage} (hground : stage.Grounded w parents)
    (hdisjoint : ∀ token ∈ fresh, token ∉ parents)
    (hnext : (Logged.gather (stage.node.advance w vars) fresh).outcome = .ok next)
    (h : stage.Settled w vars doubt parents) :
    (stage.merge next).1.Settled w vars doubt (parents ++ fresh) := by
  have hmem := Logged.mem_of_gather hnext
  intro token htoken child hchild hclear
  rw [node_merge] at hchild ⊢
  rw [tokens_merge, List.mem_append, mem_merge]
  rcases List.mem_append.mp htoken with hold | hnew
  . rw [← h token hold child hchild hclear]
    constructor
    . rintro (hthere | ⟨hmade, -⟩)
      . exact hthere
      . obtain ⟨other, hother, hyields⟩ := (hmem child).mp hmade
        rw [Node.child_unique hchild (Node.child_of_yields hyields)] at hold
        exact absurd hold (hdisjoint other hother)
    . exact .inl
  . have hmissing : child ∉ stage.tokens := by
      intro hthere
      obtain ⟨other, hother, hof⟩ := hground.closed child hthere
      rw [← Node.child_unique hchild hof] at hother
      exact hdisjoint token hnew hother
    rw [hmem child]
    constructor
    . rintro (hthere | ⟨⟨other, -, hyields⟩, -⟩)
      . exact absurd hthere hmissing
      . rw [Node.child_unique hchild (Node.child_of_yields hyields)]
        exact hyields
    . intro hyields
      exact .inr ⟨⟨token, hnew, hyields⟩, hmissing⟩

theorem push_cons_error {w : WorkingMemory} {vars : List String} {tokens : List Token}
    {stage : Stage} {stages : List Stage} {fault : Fault}
    (h : (Logged.gather (stage.node.advance w vars) tokens).outcome = .error fault) :
    push w vars tokens (stage :: stages)
      = (stage :: stages,
          ⟨(Logged.gather (stage.node.advance w vars) tokens).log, .error fault⟩) := by
  simp only [push]
  rw [h]

theorem push_cons_ok {w : WorkingMemory} {vars : List String} {tokens next : List Token}
    {stage : Stage} {stages : List Stage}
    (h : (Logged.gather (stage.node.advance w vars) tokens).outcome = .ok next) :
    push w vars tokens (stage :: stages)
      = ((stage.merge next).1 :: (push w vars (stage.merge next).2 stages).1,
          ⟨(Logged.gather (stage.node.advance w vars) tokens).log
              ++ (push w vars (stage.merge next).2 stages).2.log,
            (push w vars (stage.merge next).2 stages).2.outcome⟩) := by
  simp only [push]
  rw [h]

theorem map_node_push (w : WorkingMemory) (vars : List String) (tokens : List Token)
    (stages : List Stage) :
    (push w vars tokens stages).1.map (·.node) = stages.map (·.node) := by
  induction stages generalizing tokens with
  | nil => rfl
  | cons stage stages ih =>
    cases h : (Logged.gather (stage.node.advance w vars) tokens).outcome with
    | error fault => rw [push_cons_error h]
    | ok next => simp [push_cons_ok h, node_merge, ih]

theorem AllGrounded.push {w : WorkingMemory} {vars : List String} {parents fresh : List Token}
    {stages : List Stage} (h : AllGrounded w parents stages) :
    AllGrounded w (parents ++ fresh) (push w vars fresh stages).1 := by
  induction stages generalizing parents fresh with
  | nil => trivial
  | cons stage stages ih =>
    have hmono := h.mono (List.subset_append_left parents fresh)
    cases hnext : (Logged.gather (stage.node.advance w vars) fresh).outcome with
    | error fault =>
      rw [push_cons_error hnext]
      exact hmono
    | ok next =>
      rw [push_cons_ok hnext]
      refine ⟨hmono.1.merge ?_, ih h.2⟩
      intro child hchild
      obtain ⟨token, htoken, hyields⟩ := (Logged.mem_of_gather hnext child).mp hchild
      exact ⟨token, List.mem_append_right _ htoken, Node.child_of_yields hyields⟩

theorem AllSettled.push {w : WorkingMemory} {vars : List String} {doubt : Nat → Token → Prop}
    {parents fresh : List Token} {stages : List Stage} (hground : AllGrounded w parents stages)
    (hdisjoint : ∀ token ∈ fresh, token ∉ parents) (h : AllSettled w vars doubt parents stages)
    {new : List Token} (hok : (push w vars fresh stages).2.outcome = .ok new) :
    AllSettled w vars doubt (parents ++ fresh) (push w vars fresh stages).1 := by
  induction stages generalizing doubt parents fresh with
  | nil => trivial
  | cons stage stages ih =>
    cases hnext : (Logged.gather (stage.node.advance w vars) fresh).outcome with
    | error fault => simp [push_cons_error hnext] at hok
    | ok next =>
      rw [push_cons_ok hnext] at hok ⊢
      refine ⟨h.1.merge hground.1 hdisjoint hnext, ?_⟩
      apply ih hground.2 _ h.2 hok
      intro token htoken
      exact (mem_merge.mp htoken).2

theorem final_push {w : WorkingMemory} {vars : List String} {parents fresh new : List Token}
    {stages : List Stage} (hok : (push w vars fresh stages).2.outcome = .ok new) :
    final (parents ++ fresh) (push w vars fresh stages).1 = final parents stages ++ new := by
  induction stages generalizing parents fresh with
  | nil =>
    cases hok
    rfl
  | cons stage stages ih =>
    cases hnext : (Logged.gather (stage.node.advance w vars) fresh).outcome with
    | error fault => simp [push_cons_error hnext] at hok
    | ok next =>
      rw [push_cons_ok hnext] at hok ⊢
      exact ih hok

theorem final_push_error {w : WorkingMemory} {vars : List String} {parents fresh : List Token}
    {stages : List Stage} {fault : Fault}
    (herror : (push w vars fresh stages).2.outcome = .error fault) (parents' : List Token) :
    final parents' (push w vars fresh stages).1 = final parents stages := by
  induction stages generalizing parents parents' fresh with
  | nil => cases herror
  | cons stage stages ih =>
    cases hnext : (Logged.gather (stage.node.advance w vars) fresh).outcome with
    | error fault =>
      rw [push_cons_error hnext]
      rfl
    | ok next =>
      rw [push_cons_ok hnext] at herror ⊢
      exact ih herror _

theorem extend_nil (w : WorkingMemory) (vars : List String) (tokens : List Token)
    (position : Nat) : extend w vars tokens position [] = ([], .result []) := by
  cases position <;> rfl

theorem extend_zero (w : WorkingMemory) (vars : List String) (tokens : List Token)
    (stage : Stage) (stages : List Stage) :
    extend w vars tokens 0 (stage :: stages)
      = ((stage.merge tokens).1 :: (push w vars (stage.merge tokens).2 stages).1,
          (push w vars (stage.merge tokens).2 stages).2) :=
  rfl

theorem extend_succ (w : WorkingMemory) (vars : List String) (tokens : List Token)
    (position : Nat) (stage : Stage) (stages : List Stage) :
    extend w vars tokens (position + 1) (stage :: stages)
      = (stage :: (extend w vars tokens position stages).1,
          (extend w vars tokens position stages).2) :=
  rfl

theorem map_node_extend (w : WorkingMemory) (vars : List String) (tokens : List Token)
    (position : Nat) (stages : List Stage) :
    (extend w vars tokens position stages).1.map (·.node) = stages.map (·.node) := by
  induction stages generalizing position with
  | nil => rw [extend_nil]
  | cons stage stages ih =>
    cases position with
    | zero => simp [extend_zero, node_merge, map_node_push]
    | succ position => simp [extend_succ, ih]

theorem Settled.receive {w : WorkingMemory} {vars : List String} {doubt : Token → Prop}
    {parents tokens : List Token} {stage : Stage} (h : stage.Settled w vars doubt parents)
    (hof : ∀ child ∈ tokens, ∃ token ∈ parents, stage.node.Yields w vars token child) :
    (stage.merge tokens).1.Settled w vars (fun token => doubt token ∧ token ∉ tokens) parents := by
  intro token htoken child hchild hclear
  rw [node_merge] at hchild ⊢
  rw [tokens_merge, List.mem_append, mem_merge]
  by_cases hmem : child ∈ tokens
  . obtain ⟨other, hother, hyields⟩ := hof child hmem
    rw [← Node.child_unique hchild (Node.child_of_yields hyields)] at hyields
    have := Classical.em (child ∈ stage.tokens)
    simp [hmem, hyields, this]
  . rw [← h token htoken child hchild fun hd => hclear ⟨hd, hmem⟩]
    simp [hmem]

theorem AllGrounded.extend {w : WorkingMemory} {vars : List String} {parents tokens : List Token}
    {position : Nat} {stages : List Stage} (h : AllGrounded w parents stages)
    (hof : ∀ stage, stages[position]? = some stage → ∀ child ∈ tokens,
      ∃ token ∈ final parents (stages.take position), stage.node.Child w token child) :
    AllGrounded w parents (Stage.extend w vars tokens position stages).1 := by
  induction stages generalizing parents position with
  | nil =>
    rw [extend_nil]
    trivial
  | cons stage stages ih =>
    cases position with
    | zero => exact ⟨h.1.merge (hof stage rfl), AllGrounded.push h.2⟩
    | succ position => exact ⟨h.1, ih h.2 hof⟩

theorem AllSettled.extend {w : WorkingMemory} {vars : List String} {doubt : Nat → Token → Prop}
    {parents tokens new : List Token} {position : Nat} {stages : List Stage}
    (hground : AllGrounded w parents stages) (h : AllSettled w vars doubt parents stages)
    (hof : ∀ stage, stages[position]? = some stage → ∀ child ∈ tokens,
      ∃ token ∈ final parents (stages.take position), stage.node.Yields w vars token child)
    (hok : (Stage.extend w vars tokens position stages).2.outcome = .ok new) :
    AllSettled w vars (fun i token => doubt i token ∧ ¬ (i = position ∧ token ∈ tokens)) parents
      (Stage.extend w vars tokens position stages).1 := by
  induction stages generalizing doubt parents position with
  | nil =>
    rw [extend_nil]
    trivial
  | cons stage stages ih =>
    cases position with
    | zero =>
      rw [extend_zero] at hok ⊢
      have hfirst := h.1.receive (hof stage rfl)
      have hrest := h.2.push hground.2 (fun token htoken => (mem_merge.mp htoken).2) hok
      refine ⟨hfirst.mono ?_, hrest.mono ?_⟩
      . intro token hd
        simpa using hd
      . intro i token hd
        exact ⟨hd, by omega⟩
    | succ position =>
      refine ⟨h.1.mono ?_, (ih hground.2 h.2 hof hok).mono ?_⟩
      . intro token hd
        exact ⟨hd, by omega⟩
      . intro i token hd
        simpa using hd

theorem final_extend {w : WorkingMemory} {vars : List String} {tokens new : List Token}
    {position : Nat} {stages : List Stage}
    (hok : (extend w vars tokens position stages).2.outcome = .ok new) (parents : List Token) :
    final parents (extend w vars tokens position stages).1 = final parents stages ++ new := by
  induction stages generalizing position parents with
  | nil =>
    rw [extend_nil] at hok ⊢
    simp only [Logged.result, Except.ok.injEq] at hok
    simp [← hok]
  | cons stage stages ih =>
    cases position with
    | zero => exact final_push hok
    | succ position => exact ih hok _

theorem final_extend_error {w : WorkingMemory} {vars : List String} {tokens : List Token}
    {position : Nat} {stages : List Stage} {fault : Fault}
    (herror : (extend w vars tokens position stages).2.outcome = .error fault)
    (parents : List Token) :
    final parents (extend w vars tokens position stages).1 = final parents stages := by
  induction stages generalizing position parents with
  | nil => simp [extend_nil, Logged.result] at herror
  | cons stage stages ih =>
    cases position with
    | zero => exact final_push_error herror _
    | succ position => exact ih herror _

/-! ### Dropping tokens -/

/-- Whether a token of some length is doomed does not change when it is extended. -/
def Inherited (length : Nat) (doomed : Token → Bool) : Prop :=
  ∀ token id, length ≤ token.length → doomed (token ++ [id]) = doomed token

theorem Inherited.child {length : Nat} {doomed : Token → Bool} (h : Inherited length doomed)
    {w : WorkingMemory} {token child : Token} {node : Node} (hchild : node.Child w token child)
    (hlength : length ≤ token.length) :
    doomed child = doomed token ∧ length ≤ child.length := by
  cases node with
  | pattern =>
    obtain ⟨id, -, -, rfl⟩ := hchild
    refine ⟨h token id hlength, ?_⟩
    rw [List.length_append]
    omega
  | join | negation | aggregate =>
    rw [(Node.child_iff rfl).mp hchild]
    exact ⟨rfl, hlength⟩

theorem Grounded.length_le {length : Nat} {w : WorkingMemory} {parents : List Token}
    {stage : Stage} (h : stage.Grounded w parents)
    (hlength : ∀ token ∈ parents, length ≤ token.length) :
    ∀ token ∈ stage.tokens, length ≤ token.length := by
  intro child hmem
  obtain ⟨token, htoken, hchild⟩ := h.closed child hmem
  have hinherited : Inherited length fun _ => false := fun _ _ _ => rfl
  exact (hinherited.child hchild (hlength token htoken)).2

/-- The stage without the doomed tokens. -/
def sparing (doomed : Token → Bool) (stage : Stage) : Stage :=
  { stage with tokens := stage.tokens.filter (!doomed ·) }

theorem mem_sparing {doomed : Token → Bool} {stage : Stage} {token : Token} :
    token ∈ (stage.sparing doomed).tokens ↔ token ∈ stage.tokens ∧ doomed token = false := by
  simp [sparing]

theorem drop_nil (doomed : Token → Bool) (position : Nat) : drop doomed position [] = [] := by
  cases position <;> rfl

theorem drop_zero (doomed : Token → Bool) (stages : List Stage) :
    drop doomed 0 stages = stages.map (sparing doomed) := by
  cases stages <;> rfl

theorem drop_succ (doomed : Token → Bool) (position : Nat) (stage : Stage) (stages : List Stage) :
    drop doomed (position + 1) (stage :: stages) = stage :: drop doomed position stages :=
  rfl

theorem map_node_drop (doomed : Token → Bool) (position : Nat) (stages : List Stage) :
    (drop doomed position stages).map (·.node) = stages.map (·.node) := by
  induction stages generalizing position with
  | nil => rw [drop_nil]
  | cons stage stages ih =>
    cases position with
    | zero => simp [drop_zero, sparing]
    | succ position => simp [drop_succ, ih]

theorem Grounded.sparing {w : WorkingMemory} {parents : List Token} {doomed : Token → Bool}
    {stage : Stage} (h : stage.Grounded w parents) : (stage.sparing doomed).Grounded w parents := by
  refine ⟨h.nodup.filter _, ?_⟩
  intro child hchild
  exact h.closed child (mem_sparing.mp hchild).1

theorem AllGrounded.sparing {length : Nat} {w : WorkingMemory} {parents : List Token}
    {doomed : Token → Bool} {stages : List Stage} (hdoomed : Inherited length doomed)
    (hlength : ∀ token ∈ parents, length ≤ token.length) (h : AllGrounded w parents stages) :
    AllGrounded w (parents.filter (!doomed ·)) (stages.map (Stage.sparing doomed)) := by
  induction stages generalizing parents with
  | nil => trivial
  | cons stage stages ih =>
    refine ⟨⟨h.1.nodup.filter _, ?_⟩, ih (h.1.length_le hlength) h.2⟩
    intro child hmem
    rw [mem_sparing] at hmem
    obtain ⟨token, htoken, hchild⟩ := h.1.closed child hmem.1
    refine ⟨token, ?_, hchild⟩
    have := (hdoomed.child hchild (hlength token htoken)).1
    simp [htoken, ← this, hmem.2]

theorem AllSettled.sparing {length : Nat} {w : WorkingMemory} {vars : List String}
    {doubt : Nat → Token → Prop} {parents : List Token} {doomed : Token → Bool}
    {stages : List Stage} (hdoomed : Inherited length doomed)
    (hlength : ∀ token ∈ parents, length ≤ token.length) (hground : AllGrounded w parents stages)
    (h : AllSettled w vars doubt parents stages) :
    AllSettled w vars doubt (parents.filter (!doomed ·)) (stages.map (Stage.sparing doomed)) := by
  induction stages generalizing doubt parents with
  | nil => trivial
  | cons stage stages ih =>
    refine ⟨?_, ih (hground.1.length_le hlength) hground.2 h.2⟩
    intro token htoken child hchild hclear
    simp only [List.mem_filter, Bool.not_eq_true'] at htoken
    have hspared := (hdoomed.child hchild (hlength token htoken.1)).1
    rw [mem_sparing, h.1 token htoken.1 child hchild hclear, hspared, htoken.2]
    simp [Stage.sparing]

theorem AllGrounded.drop {length : Nat} {w : WorkingMemory} {parents : List Token}
    {doomed : Token → Bool} {position : Nat} {stages : List Stage}
    (hdoomed : Inherited length doomed) (h : AllGrounded w parents stages)
    (hlength : ∀ stage, stages[position]? = some stage →
      ∀ token ∈ stage.tokens, length ≤ token.length) :
    AllGrounded w parents (Stage.drop doomed position stages) := by
  induction stages generalizing parents position with
  | nil =>
    rw [drop_nil]
    trivial
  | cons stage stages ih =>
    cases position with
    | zero =>
      rw [drop_zero]
      exact ⟨h.1.sparing, h.2.sparing hdoomed (hlength stage rfl)⟩
    | succ position => exact ⟨h.1, ih h.2 hlength⟩

theorem AllSettled.drop {length : Nat} {w : WorkingMemory} {vars : List String}
    {doubt : Nat → Token → Prop} {parents : List Token} {doomed : Token → Bool} {position : Nat}
    {stages : List Stage} (hdoomed : Inherited length doomed) (hground : AllGrounded w parents stages)
    (h : AllSettled w vars doubt parents stages)
    (hlength : ∀ stage, stages[position]? = some stage →
      ∀ token ∈ stage.tokens, length ≤ token.length)
    (hno : ∀ stage, stages[position]? = some stage →
      ∀ token ∈ final parents (stages.take position), ∀ child, doomed child = true →
        ¬ stage.node.Yields w vars token child) :
    AllSettled w vars (fun i token => doubt i token ∧ ¬ (i = position ∧ doomed token = true)) parents
      (Stage.drop doomed position stages) := by
  induction stages generalizing doubt parents position with
  | nil =>
    rw [drop_nil]
    trivial
  | cons stage stages ih =>
    cases position with
    | zero =>
      rw [drop_zero]
      constructor
      . intro token htoken child hchild hclear
        rw [mem_sparing]
        by_cases hmem : doomed child = true
        . have := hno stage rfl token htoken child hmem
          simp [hmem, Stage.sparing, this]
        . rw [h.1 token htoken child hchild fun hd => hclear ⟨hd, by simp [hmem]⟩]
          simp [hmem, Stage.sparing]
      . apply (h.2.sparing hdoomed (hlength stage rfl) hground.2).mono
        intro i token hd
        exact ⟨hd, by omega⟩
    | succ position =>
      refine ⟨h.1.mono ?_, (ih hground.2 h.2 hlength hno).mono ?_⟩
      . intro token hd
        exact ⟨hd, by omega⟩
      . intro i token hd
        simpa using hd

theorem AllGrounded.unbound {w : WorkingMemory} {parents : List Token} {stages : List Stage}
    (h : AllGrounded w parents stages) {id : Int} {n : Nat} (hparents : ∀ token ∈ parents, id ∉ token)
    (hmembers : ∀ i < n, ∀ stage, stages[i]? = some stage → ∀ alpha, stage.node = .pattern alpha →
      id ∉ w.members alpha) :
    ∀ i < n, ∀ stage, stages[i]? = some stage → ∀ token ∈ stage.tokens, id ∉ token := by
  induction stages generalizing parents n with
  | nil => simp
  | cons first stages ih =>
    intro i hi
    have hfirst : ∀ token ∈ first.tokens, id ∉ token := by
      intro child hchild
      obtain ⟨token, htoken, hof⟩ := h.1.closed child hchild
      cases hnode : first.node with
      | pattern alpha =>
        rw [hnode] at hof
        obtain ⟨other, hmem, -, rfl⟩ := hof
        rw [List.mem_append, List.mem_singleton]
        rintro (hthere | rfl)
        . exact hparents token htoken hthere
        . exact hmembers 0 (by omega) first rfl alpha hnode hmem
      | join | negation | aggregate =>
        rw [hnode] at hof
        rw [(Node.child_iff rfl).mp hof]
        exact hparents token htoken
    cases i with
    | zero =>
      intro stage hstage
      rw [List.getElem?_cons_zero, Option.some.injEq] at hstage
      rw [← hstage]
      exact hfirst
    | succ i =>
      have hrest : ∀ j < n - 1, ∀ stage, stages[j]? = some stage → ∀ alpha,
          stage.node = .pattern alpha → id ∉ w.members alpha :=
        fun j hj => hmembers (j + 1) (by omega)
      exact ih h.2 hfirst hrest i (by omega)

theorem sparing_eq_self {doomed : Token → Bool} {stage : Stage}
    (h : ∀ token ∈ stage.tokens, doomed token = false) : stage.sparing doomed = stage := by
  unfold sparing
  rw [List.filter_eq_self.mpr fun token htoken => by simp [h token htoken]]

theorem drop_eq_map {doomed : Token → Bool} {position : Nat} {stages : List Stage}
    (h : ∀ i < position, ∀ stage, stages[i]? = some stage →
      ∀ token ∈ stage.tokens, doomed token = false) :
    drop doomed position stages = stages.map (sparing doomed) := by
  induction stages generalizing position with
  | nil => rw [drop_nil, List.map_nil]
  | cons stage stages ih =>
    cases position with
    | zero => rw [drop_zero]
    | succ position =>
      rw [drop_succ, List.map_cons, sparing_eq_self (h 0 (by omega) stage rfl),
        ih fun i hi => h (i + 1) (by omega)]

theorem final_sparing (parents : List Token) (doomed : Token → Bool) (stages : List Stage) :
    final (parents.filter (!doomed ·)) (stages.map (sparing doomed))
      = (final parents stages).filter (!doomed ·) := by
  induction stages generalizing parents with
  | nil => rfl
  | cons stage stages ih => exact ih stage.tokens

theorem final_drop (parents : List Token) (doomed : Token → Bool) {position : Nat}
    {stages : List Stage} (h : position < stages.length) :
    final parents (drop doomed position stages)
      = (final parents stages).filter (!doomed ·) := by
  induction stages generalizing parents position with
  | nil => simp at h
  | cons stage stages ih =>
    cases position with
    | zero =>
      rw [drop_zero]
      exact final_sparing stage.tokens doomed stages
    | succ position =>
      rw [List.length_cons] at h
      exact ih stage.tokens (by omega)

theorem take_drop_stages (doomed : Token → Bool) (position : Nat) (stages : List Stage) :
    (drop doomed position stages).take position = stages.take position := by
  induction stages generalizing position with
  | nil => rw [drop_nil]
  | cons stage stages ih =>
    cases position with
    | zero => rfl
    | succ position => simp [drop_succ, ih]

theorem getElem?_drop_stages {doomed : Token → Bool} {position : Nat} {stages : List Stage}
    {stage : Stage} (h : stages[position]? = some stage) :
    (drop doomed position stages)[position]? = some (stage.sparing doomed) := by
  induction stages generalizing position with
  | nil => simp at h
  | cons first stages ih =>
    cases position with
    | zero =>
      simp only [List.getElem?_cons_zero, Option.some.injEq] at h
      simp [drop_zero, h]
    | succ position => exact ih h

theorem take_extend (w : WorkingMemory) (vars : List String) (tokens : List Token)
    (position : Nat) (stages : List Stage) :
    (extend w vars tokens position stages).1.take position = stages.take position := by
  induction stages generalizing position with
  | nil => rw [extend_nil]
  | cons stage stages ih =>
    cases position with
    | zero => rfl
    | succ position => simp [extend_succ, ih]

theorem getElem?_extend {w : WorkingMemory} {vars : List String} {tokens : List Token}
    {position : Nat} {stages : List Stage} {stage : Stage} (h : stages[position]? = some stage) :
    (extend w vars tokens position stages).1[position]? = some (stage.merge tokens).1 := by
  induction stages generalizing position with
  | nil => simp at h
  | cons first stages ih =>
    cases position with
    | zero =>
      simp only [List.getElem?_cons_zero, Option.some.injEq] at h
      simp [extend_zero, h]
    | succ position => exact ih h

/-! ### Single positions -/

theorem AllGrounded.at {w : WorkingMemory} {parents : List Token} {stages : List Stage}
    (h : AllGrounded w parents stages) {position : Nat} {stage : Stage}
    (hstage : stages[position]? = some stage) :
    stage.Grounded w (final parents (stages.take position)) := by
  induction stages generalizing parents position with
  | nil => simp at hstage
  | cons first stages ih =>
    cases position with
    | zero =>
      simp only [List.getElem?_cons_zero, Option.some.injEq] at hstage
      rw [← hstage]
      exact h.1
    | succ position => exact ih h.2 hstage

theorem AllSettled.at {w : WorkingMemory} {vars : List String} {doubt : Nat → Token → Prop}
    {parents : List Token} {stages : List Stage} (h : AllSettled w vars doubt parents stages)
    {position : Nat} {stage : Stage} (hstage : stages[position]? = some stage) :
    stage.Settled w vars (doubt position) (final parents (stages.take position)) := by
  induction stages generalizing doubt parents position with
  | nil => simp at hstage
  | cons first stages ih =>
    cases position with
    | zero =>
      simp only [List.getElem?_cons_zero, Option.some.injEq] at hstage
      rw [← hstage]
      exact h.1
    | succ position => exact ih h.2 hstage

theorem AllSettled.clear {w : WorkingMemory} {vars : List String} {doubt doubt' : Nat → Token → Prop}
    {parents : List Token} {stages : List Stage} (h : AllSettled w vars doubt parents stages)
    (position : Nat)
    (hthere : ∀ stage, stages[position]? = some stage →
      stage.Settled w vars (doubt' position) (final parents (stages.take position)))
    (hother : ∀ i token, i ≠ position → doubt i token → doubt' i token) :
    AllSettled w vars doubt' parents stages := by
  induction stages generalizing doubt doubt' parents position with
  | nil => trivial
  | cons stage stages ih =>
    cases position with
    | zero =>
      refine ⟨hthere stage rfl, h.2.mono ?_⟩
      intro i token
      exact hother (i + 1) token (by omega)
    | succ position =>
      refine ⟨h.1.mono ?_, ih h.2 position hthere ?_⟩
      . intro token
        exact hother 0 token (by omega)
      . intro i token hi
        exact hother (i + 1) token (by omega)

/-- The number of variables that some stages bind. -/
def binds (stages : List Stage) : Nat :=
  (stages.filter (·.node.isPattern)).length

theorem length_of_mem_final {w : WorkingMemory} {parents : List Token} {stages : List Stage}
    {n : Nat} (h : AllGrounded w parents stages)
    (hlength : ∀ token ∈ parents, token.length = n) :
    ∀ token ∈ final parents stages, token.length = n + binds stages := by
  induction stages generalizing parents n with
  | nil => simpa [binds, final] using hlength
  | cons stage stages ih =>
    intro token htoken
    cases hnode : stage.node.isPattern with
    | true =>
      obtain ⟨alpha, hpattern⟩ := Node.exists_of_isPattern hnode
      have hstage : ∀ token ∈ stage.tokens, token.length = n + 1 := by
        intro child hmem
        obtain ⟨token, htoken, hchild⟩ := h.1.closed child hmem
        rw [hpattern] at hchild
        obtain ⟨id, -, -, rfl⟩ := hchild
        simp [hlength token htoken]
      rw [ih h.2 hstage token htoken]
      simp only [binds, List.filter_cons, hnode, if_true, List.length_cons]
      omega
    | false =>
      have hstage : ∀ token ∈ stage.tokens, token.length = n := by
        intro child hmem
        obtain ⟨token, htoken, hchild⟩ := h.1.closed child hmem
        rw [(Node.child_iff hnode).mp hchild]
        exact hlength token htoken
      rw [ih h.2 hstage token htoken]
      simp [binds, hnode]

theorem width_eq_binds (position : Nat) (stages : List Stage) :
    width position stages = binds (stages.take (position + 1)) :=
  rfl

theorem AllGrounded.take {w : WorkingMemory} {parents : List Token} {stages : List Stage}
    (h : AllGrounded w parents stages) (position : Nat) :
    AllGrounded w parents (stages.take position) := by
  induction stages generalizing parents position with
  | nil => simpa using h
  | cons stage stages ih =>
    cases position with
    | zero => trivial
    | succ position => exact ⟨h.1, ih h.2 position⟩

theorem AllSettled.take {w : WorkingMemory} {vars : List String} {doubt : Nat → Token → Prop}
    {parents : List Token} {stages : List Stage} (h : AllSettled w vars doubt parents stages)
    (position : Nat) : AllSettled w vars doubt parents (stages.take position) := by
  induction stages generalizing parents doubt position with
  | nil => simpa using h
  | cons stage stages ih =>
    cases position with
    | zero => trivial
    | succ position => exact ⟨h.1, ih h.2 position⟩

theorem final_take_succ {stages : List Stage} {i : Nat} {stage : Stage}
    (h : stages[i]? = some stage) (parents : List Token) :
    final parents (stages.take (i + 1)) = stage.tokens := by
  induction stages generalizing parents i with
  | nil => simp at h
  | cons first stages ih =>
    cases i with
    | zero =>
      rw [List.getElem?_cons_zero, Option.some.injEq] at h
      simp [final, h]
    | succ i => exact ih h first.tokens

end Stage
end ForwardChaining
