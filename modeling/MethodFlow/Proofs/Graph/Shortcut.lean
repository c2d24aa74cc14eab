import MethodFlow.Proofs.Graph.Run

/-!
# Shortcuts past empty blocks

`FlowGraph.Shortcut g g'` says that `g'` is `g` with some slots led past empty blocks: a slot of a
node other than an empty block may lead to any node which its old target leads to over empty blocks
alone.  Nothing else differs.  A shortcut keeps the runs from the start (`Shortcut.run_iff`) and the
nodes which can be reached (`Shortcut.reaches_iff`), empty blocks apart.
-/

namespace MethodFlow

theorem Content.isEmptyBlock_iff
    {c : Content} :
  c.isEmptyBlock ↔ c.kind = .block ∧ c.actions = []
  := by
  cases c with
  | block actions next => cases actions <;> simp [isEmptyBlock, kind, Content.actions]
  | _ => simp [isEmptyBlock, kind]

theorem Content.observations_of_isEmptyBlock
    {c : Content} (h : c.isEmptyBlock) :
  c.observations = []
  := by
  revert h
  fun_cases isEmptyBlock <;> simp [observations]

theorem Content.eq_next_of_isEmptyBlock
    {c : Content} (h : c.isEmptyBlock) {p : Exit} {m : Node} (hp : c.target? p = some m) :
  p = .next
  := by
  revert h hp
  fun_cases isEmptyBlock <;> cases p <;> simp [target?]

namespace FlowGraph

variable {g g' g'' : FlowGraph} {n n' k m : Node}

/-- `n` is an empty block which leads on to `m`. -/
def Skips (g : FlowGraph) (n m : Node) : Prop :=
  (g.content n).isEmptyBlock ∧ (g.content n).target? .next = some m

/-- `m` is reached from `n` by stepping over empty blocks only. -/
def Slides (g : FlowGraph) : Node → Node → Prop :=
  Relation.ReflTransGen g.Skips

theorem exits_of_isEmptyBlock
    (h : (g.content n).isEmptyBlock) :
  g.exits n = [.next]
  := by
  have hkind : g.kind n = .block := (Content.isEmptyBlock_iff.mp h).1
  rw [exits, hkind, Kind.exits]

theorem not_isEmptyBlock_start
    (g : FlowGraph) :
  ¬ (g.content .start).isEmptyBlock
  := by
  simp [content, Content.isEmptyBlock]

theorem skips_of_target?
    (h : (g.content n).isEmptyBlock) {p : Exit} (hp : (g.content n).target? p = some m) :
  g.Skips n m
  := by
  obtain rfl := Content.eq_next_of_isEmptyBlock h hp
  exact ⟨h, hp⟩

theorem Skips.unique
    (h : g.Skips n k) (h' : g.Skips n m) :
  k = m
  := by
  apply Option.some.inj
  rw [← h.2, ← h'.2]

theorem Slides.eq_of_not_isEmptyBlock
    (h : g.Slides n m) (hn : ¬ (g.content n).isEmptyBlock) :
  m = n
  := by
  cases h using Relation.ReflTransGen.head_induction_on with
  | refl => rfl
  | head hskip _ => exact absurd hskip.1 hn

/-- A node which slides somewhere else is an empty block, and the node it leads on to slides there
too. -/
theorem Slides.exists_skips_of_ne
    (h : g.Slides n m) (hne : n ≠ m) :
  ∃ k, g.Skips n k ∧ g.Slides k m
  := by
  cases h using Relation.ReflTransGen.head_induction_on with
  | refl => exact absurd rfl hne
  | head hskip h => exact ⟨_, hskip, h⟩

theorem Slides.run
    (h : g.Slides n m) :
  g.Run n [] [] m
  := by
  induction h using Relation.ReflTransGen.head_induction_on with
  | refl => apply Run.refl
  | head hskip _ ih =>
      have hstep := Run.step hskip.2 ih
      rwa [Content.observations_of_isEmptyBlock hskip.1] at hstep

/-! ### Paths which lead on behind their empty blocks -/

/-- Every empty block on a path to `n` leads on to a node of the path or to `n`. -/
def Settled (g : FlowGraph) (path : List Node) (n : Node) : Prop :=
  ∀ k ∈ path, (g.content k).isEmptyBlock → ∃ m, g.Skips k m ∧ (m ∈ path ∨ m = n)

theorem settled_start
    (g : FlowGraph) (n : Node) :
  g.Settled [.start] n
  := by
  intro k hk hempty
  rw [List.mem_singleton.mp hk] at hempty
  exact absurd hempty g.not_isEmptyBlock_start

/-- A path led through a node is settled if the node, where it is an empty block, leads on. -/
theorem Settled.cons
    {path : List Node} (h : g.Settled path n) (hnext : (g.content n).isEmptyBlock → g.Skips n m) :
  g.Settled (n :: path) m
  := by
  intro k hk hempty
  obtain rfl | hk := List.mem_cons.mp hk
  · exact ⟨m, hnext hempty, Or.inr rfl⟩
  · obtain ⟨j, hskip, hj⟩ := h k hk hempty
    use j, hskip
    left
    obtain hj | rfl := hj
    · apply List.mem_cons_of_mem _ hj
    · apply List.mem_cons_self

/-- On a path which comes back to one of its nodes, empty blocks lead to nodes of the path. -/
theorem Settled.exists_skips
    {path : List Node} (h : g.Settled path n) (hn : n ∈ path) {k : Node} (hk : k ∈ path)
    (hempty : (g.content k).isEmptyBlock) :
  ∃ m, g.Skips k m ∧ m ∈ path
  := by
  obtain ⟨m, hskip, hm⟩ := h k hk hempty
  obtain hm | rfl := hm
  · exact ⟨m, hskip, hm⟩
  · exact ⟨m, hskip, hn⟩

/-- From a path which comes back to one of its nodes, empty blocks lead to nodes of the path
only. -/
theorem Settled.mem_of_slides
    {path : List Node} (h : g.Settled path n) (hn : n ∈ path) (hslide : g.Slides n m) :
  m ∈ path
  := by
  induction hslide with
  | refl => apply hn
  | tail _ hskip ih =>
      obtain ⟨j, hskip', hj⟩ := h.exists_skips hn ih hskip.1
      rwa [hskip.unique hskip']

/-! ### Shortcuts -/

/-- `g'` is `g` with some slots led past empty blocks. -/
structure Shortcut (g g' : FlowGraph) : Prop where
  parameters : g'.parameters = g.parameters
  size : g'.size = g.size
  kind : ∀ n, g'.kind n = g.kind n
  actions : ∀ n, (g'.content n).actions = (g.content n).actions
  condition? : ∀ n, (g'.content n).condition? = (g.content n).condition?
  /-- An empty block leads where it led. -/
  emptyBlock : ∀ n p, (g.content n).isEmptyBlock →
    (g'.content n).target? p = (g.content n).target? p
  /-- A slot is set exactly when it was set, and leads to where its old target slides. -/
  target? : ∀ n p, Option.Rel g.Slides ((g.content n).target? p) ((g'.content n).target? p)

namespace Shortcut

/-- A graph is a shortcut of itself. -/
theorem refl
    (g : FlowGraph) :
  g.Shortcut g
  where
  parameters := rfl
  size := rfl
  kind _ := rfl
  actions _ := rfl
  condition? _ := rfl
  emptyBlock _ _ _ := rfl
  target? n p := by
    cases (g.content n).target? p with
    | none => apply Option.Rel.none
    | some m => apply Option.Rel.some Relation.ReflTransGen.refl

theorem isEmptyBlock_iff
    (h : g.Shortcut g') (n : Node) :
  (g'.content n).isEmptyBlock ↔ (g.content n).isEmptyBlock
  := by
  have hkind : (g'.content n).kind = (g.content n).kind := h.kind n
  rw [Content.isEmptyBlock_iff, Content.isEmptyBlock_iff, hkind, h.actions]

theorem exits
    (h : g.Shortcut g') (n : Node) :
  g'.exits n = g.exits n
  := by
  rw [FlowGraph.exits, h.kind, FlowGraph.exits]

theorem observations
    (h : g.Shortcut g') (n : Node) :
  (g'.content n).observations = (g.content n).observations
  := by
  rw [Content.observations_eq, Content.observations_eq, h.actions, h.condition?]

/-- Empty blocks of a shortcut lead on as they did. -/
theorem skips_iff
    (h : g.Shortcut g') :
  g'.Skips n m ↔ g.Skips n m
  := by
  unfold Skips
  rw [h.isEmptyBlock_iff]
  constructor
  · intro ⟨hempty, htarget⟩
    rw [h.emptyBlock n .next hempty] at htarget
    exact ⟨hempty, htarget⟩
  · intro ⟨hempty, htarget⟩
    rw [← h.emptyBlock n .next hempty] at htarget
    exact ⟨hempty, htarget⟩

theorem slides_eq
    (h : g.Shortcut g') :
  g'.Slides = g.Slides
  := by
  have hskips : g'.Skips = g.Skips := by
    funext n m
    apply propext h.skips_iff
  unfold Slides
  rw [hskips]

/-- A shortcut of a shortcut is a shortcut. -/
theorem trans
    (h : g.Shortcut g') (h' : g'.Shortcut g'') :
  g.Shortcut g''
  where
  parameters := h'.parameters.trans h.parameters
  size := h'.size.trans h.size
  kind n := (h'.kind n).trans (h.kind n)
  actions n := (h'.actions n).trans (h.actions n)
  condition? n := (h'.condition? n).trans (h.condition? n)
  emptyBlock n p hempty := by
    rw [h'.emptyBlock n p ((h.isEmptyBlock_iff n).mpr hempty), h.emptyBlock n p hempty]
  target? n p := by
    have hfirst := h.target? n p
    have hsecond := h'.target? n p
    rw [h.slides_eq] at hsecond
    revert hfirst hsecond
    generalize (g.content n).target? p = a
    generalize (g'.content n).target? p = b
    generalize (g''.content n).target? p = c
    rintro (hslide | _) (hslide' | _)
    · apply Option.Rel.some (Relation.ReflTransGen.trans hslide hslide')
    · apply Option.Rel.none

/-- Leading a slot of a node which is no empty block from an empty block to the next node is a
shortcut. -/
theorem redirect
    {s : Slot} (hs : ¬ (g.content s.node).isEmptyBlock)
    (hn : (g.content s.node).target? s.exit = some n) (hskip : g.Skips n m) :
  g.Shortcut (g.redirect s m)
  := by
  have hmem : s.exit ∈ (g.content s.node).kind.exits := by
    by_contra hmem
    rw [Content.target?_eq_none hmem] at hn
    contradiction
  constructor
  · unfold FlowGraph.redirect
    split <;> rfl
  · apply size_redirect g s m
  · apply kind_redirect g s m
  · intro k
    rw [content_redirect]
    split <;> simp
  · intro k
    rw [content_redirect]
    split <;> simp
  · intro k p hempty
    rw [content_redirect, if_neg]
    rintro rfl
    apply hs hempty
  · intro k p
    rw [content_redirect]
    split
    case isTrue hk =>
      subst hk
      rw [Content.target?_redirect]
      split
      case isTrue hp =>
        rw [hp.1, hn]
        apply Option.Rel.some (Relation.ReflTransGen.single hskip)
      case isFalse => exact (refl g).target? _ p
    case isFalse => exact (refl g).target? k p

/-! ### Runs of a shortcut -/

/-- A slot of a shortcut which leads somewhere led to a node which slides there. -/
theorem exists_of_target?
    (h : g.Shortcut g') {p : Exit} (hp : (g'.content n).target? p = some m) :
  ∃ k, (g.content n).target? p = some k ∧ g.Slides k m
  := by
  have hrel := h.target? n p
  rw [hp] at hrel
  generalize hk : (g.content n).target? p = a at hrel
  obtain hslide | _ := hrel
  exact ⟨_, rfl, hslide⟩

/-- A slot which leads somewhere leads, in a shortcut, to where its target slides. -/
theorem exists_target?
    (h : g.Shortcut g') {p : Exit} (hp : (g.content n).target? p = some k) :
  ∃ m, (g'.content n).target? p = some m ∧ g.Slides k m
  := by
  have hrel := h.target? n p
  rw [hp] at hrel
  generalize hm : (g'.content n).target? p = a at hrel
  obtain hslide | _ := hrel
  exact ⟨_, rfl, hslide⟩

/-- The target of a slot slides to its target in a shortcut. -/
theorem slides_of_target?
    (h : g.Shortcut g') {p : Exit} (hp : (g.content n).target? p = some k)
    (hp' : (g'.content n).target? p = some m) :
  g.Slides k m
  := by
  obtain ⟨m', hm', hslide⟩ := h.exists_target? hp
  rw [hp'] at hm'
  rwa [Option.some.inj hm']

theorem target?_eq_none
    (h : g.Shortcut g') {p : Exit} (hp : (g.content n).target? p = none) :
  (g'.content n).target? p = none
  := by
  rw [Option.eq_none_iff_forall_ne_some]
  intro m hm
  obtain ⟨k, hk, -⟩ := h.exists_of_target? hm
  rw [hp] at hk
  contradiction

/-- Every run of a shortcut is a run of the graph. -/
theorem run_of_run
    (h : g.Shortcut g') {os : List Bool} {es : List Observation} (hrun : g'.Run n os es m) :
  g.Run n os es m
  := by
  obtain ⟨route, hroute, rfl, rfl⟩ := hrun
  induction hroute with
  | refl n => apply Run.refl
  | step hp _ ih =>
      obtain ⟨k, hk, hslide⟩ := h.exists_of_target? hp
      have hstep := Run.step hk (hslide.run.trans ih)
      rw [outcomes_cons, observations_cons, h.observations]
      apply hstep

/-- A run of the graph is a run of a shortcut, from anywhere its first node slides to, up to empty
blocks at its end. -/
theorem exists_run_of_run
    (h : g.Shortcut g') {os : List Bool} {es : List Observation} (hrun : g.Run n os es m)
    (hslide : g.Slides n n') :
  ∃ m', g.Slides m m' ∧ g'.Run n' os es m'
  := by
  obtain ⟨route, hroute, rfl, rfl⟩ := hrun
  induction hroute generalizing n' with
  | refl n => exact ⟨n', hslide, Run.refl n'⟩
  | @step n k m p route hp _ ih =>
      rw [outcomes_cons, observations_cons]
      by_cases hempty : (g.content n).isEmptyBlock
      · obtain rfl := Content.eq_next_of_isEmptyBlock hempty hp
        rw [Content.observations_of_isEmptyBlock hempty]
        by_cases heq : n = n'
        · -- the empty block itself is where the run of the shortcut starts
          subst heq
          obtain ⟨m', hm', hrun⟩ := ih Relation.ReflTransGen.refl
          have hp' := h.emptyBlock n .next hempty
          have hstep := Run.step (hp'.trans hp) hrun
          rw [h.observations, Content.observations_of_isEmptyBlock hempty] at hstep
          exact ⟨m', hm', hstep⟩
        · obtain ⟨j, hskip, hslide'⟩ := hslide.exists_skips_of_ne heq
          rw [hskip.unique ⟨hempty, hp⟩] at hslide'
          apply ih hslide'
      · obtain rfl := hslide.eq_of_not_isEmptyBlock hempty
        obtain ⟨k', hk', hslide'⟩ := h.exists_target? hp
        obtain ⟨m', hm', hrun⟩ := ih hslide'
        have hstep := Run.step hk' hrun
        rw [h.observations] at hstep
        exact ⟨m', hm', hstep⟩

/-- A shortcut has the same runs to nodes which are no empty blocks. -/
theorem run_iff
    (h : g.Shortcut g') {os : List Bool} {es : List Observation}
    (hm : ¬ (g.content m).isEmptyBlock) :
  g'.Run n os es m ↔ g.Run n os es m
  := by
  constructor
  · apply h.run_of_run
  · intro hrun
    obtain ⟨m', hslide, hrun'⟩ := h.exists_run_of_run hrun Relation.ReflTransGen.refl
    rwa [hslide.eq_of_not_isEmptyBlock hm] at hrun'

/-- The same may happen along the runs of a shortcut. -/
theorem exists_run_iff
    (h : g.Shortcut g') {os : List Bool} {es : List Observation} :
  (∃ m, g'.Run n os es m) ↔ ∃ m, g.Run n os es m
  := by
  constructor
  · intro ⟨m, hrun⟩
    exact ⟨m, h.run_of_run hrun⟩
  · intro ⟨m, hrun⟩
    obtain ⟨m', -, hrun'⟩ := h.exists_run_of_run hrun Relation.ReflTransGen.refl
    exact ⟨m', hrun'⟩

/-- The same nodes can be reached in a shortcut, empty blocks apart. -/
theorem reaches_iff
    (h : g.Shortcut g') (hm : ¬ (g.content m).isEmptyBlock) :
  g'.Reaches n m ↔ g.Reaches n m
  := by
  rw [reaches_iff_exists_run, reaches_iff_exists_run]
  simp only [h.run_iff hm]

end Shortcut

end FlowGraph

end MethodFlow
