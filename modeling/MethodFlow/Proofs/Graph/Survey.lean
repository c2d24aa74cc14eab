import MethodFlow.Proofs.Graph.Unvisited

/-!
# The depth-first survey of a flow graph

`FlowGraph.depthFirst` enters each node which can be reached from the start once.  It reads a slot
right before it enters what the slot leads to, and walks everything behind that before it reads the
next slot of the node.  It lists the nodes in the order of entering, or stops at the first slot
which is not set.  The survey comes to its end exactly when every slot which can be reached is set
(`FlowGraph.wired_iff_depthFirst`).
-/

namespace MethodFlow

namespace FlowGraph

theorem unvisited_concat_lt
    {g : FlowGraph} {n : Node} {path : List Node} (hmem : n ∈ g.nodes) (h : n ∉ path) :
  g.unvisited (path ++ [n]) < g.unvisited path
  := by
  apply Nat.lt_of_le_of_lt _ (unvisited_cons_lt hmem h)
  apply unvisited_le_of_subset
  intro m hm
  simpa [or_comm] using hm

/-- The slots of a node, in the order of its exits. -/
def slots (g : FlowGraph) (n : Node) : List Slot :=
  (g.exits n).map (⟨n, ·⟩)

theorem slots_of_not_mem_nodes
    {g : FlowGraph} {n : Node} (h : n ∉ g.nodes) :
  g.slots n = []
  := by
  rw [slots, exits, kind, content_of_not_mem_nodes h]
  rfl

/-- Follows the slots which are pending, one after the other, and enters the nodes to which they
lead if these were not visited before: then the slots of the node come first.  It lists all nodes
visited in the end, or stops at the first slot which is not set. -/
def survey (g : FlowGraph) (visited : List Node) : List Slot → Except Slot (List Node)
  | [] => .ok visited
  | s :: pending =>
    match (g.content s.node).target? s.exit with
    | none => .error s
    | some m =>
      if m ∈ visited then
        survey g visited pending
      else
        survey g (visited ++ [m]) (g.slots m ++ pending)
termination_by pending => (g.unvisited visited, pending.length)
decreasing_by
  · apply Prod.Lex.right
    apply Nat.lt_succ_self
  · rename_i hm
    by_cases hmem : m ∈ g.nodes
    · apply Prod.Lex.left
      apply unvisited_concat_lt hmem hm
    · have hle := unvisited_le_of_subset (g := g) (List.subset_append_left visited [m])
      rw [slots_of_not_mem_nodes hmem]
      obtain hlt | heq := Nat.lt_or_eq_of_le hle
      · apply Prod.Lex.left _ _ hlt
      · rw [heq]
        apply Prod.Lex.right
        apply Nat.lt_succ_self

/-- Enters a node if it was not visited before, and surveys what is behind it. -/
def enter (g : FlowGraph) (visited : List Node) (n : Node) : Except Slot (List Node) :=
  if n ∈ visited then .ok visited else g.survey (visited ++ [n]) (g.slots n)

/-- The nodes which can be reached from the start in the order of entering each once, or the first
slot on the way which is not set. -/
def depthFirst (g : FlowGraph) : Except Slot (List Node) :=
  g.enter [] .start

variable {g : FlowGraph} {visited visited' : List Node} {pending : List Slot} {s : Slot}
  {n m k : Node}

@[simp]
theorem survey_nil
    (g : FlowGraph) (visited : List Node) :
  g.survey visited [] = .ok visited
  := by
  rw [survey]

theorem survey_of_unset
    (h : (g.content s.node).target? s.exit = none) (visited : List Node) (pending : List Slot) :
  g.survey visited (s :: pending) = .error s
  := by
  rw [survey, h]

/-- What is pending last is surveyed last. -/
theorem survey_append
    (g : FlowGraph) (visited : List Node) (pending pending' : List Slot) :
  g.survey visited (pending ++ pending')
    = g.survey visited pending >>= fun visited' => g.survey visited' pending'
  := by
  fun_induction survey g visited pending with
  | case1 visited => rfl
  | case2 visited s pending hs =>
      rw [List.cons_append, survey_of_unset hs]
      rfl
  | case3 visited s pending m hs hm ih =>
      rw [List.cons_append, survey, hs]
      dsimp only
      rw [if_pos hm, ih]
  | case4 visited s pending m hs hm ih =>
      rw [List.cons_append, survey, hs]
      dsimp only
      rw [if_neg hm, ← List.append_assoc, ih]

/-- A slot which is set is followed before what is pending behind it. -/
theorem survey_of_set
    (h : (g.content s.node).target? s.exit = some m) (visited : List Node)
    (pending : List Slot) :
  g.survey visited (s :: pending)
    = g.enter visited m >>= fun visited' => g.survey visited' pending
  := by
  rw [survey, h, enter]
  dsimp only
  by_cases hm : m ∈ visited
  · rw [if_pos hm, if_pos hm]
    rfl
  · rw [if_neg hm, if_neg hm, survey_append]

theorem isPrefix_of_survey
    (h : g.survey visited pending = .ok visited') :
  visited <+: visited'
  := by
  fun_induction survey g visited pending with
  | case1 visited =>
      cases h
      apply List.prefix_rfl
  | case2 visited s pending hs => contradiction
  | case3 visited s pending m hs hm ih => apply ih h
  | case4 visited s pending m hs hm ih => exact (List.prefix_append _ _).trans (ih h)

theorem enter_of_mem
    (h : n ∈ visited) :
  g.enter visited n = .ok visited
  := by
  rw [enter, if_pos h]

theorem enter_of_not_mem
    (h : n ∉ visited) :
  g.enter visited n = g.survey (visited ++ [n]) (g.slots n)
  := by
  rw [enter, if_neg h]

theorem isPrefix_of_enter
    (h : g.enter visited n = .ok visited') :
  visited <+: visited'
  := by
  by_cases hn : n ∈ visited
  · rw [enter_of_mem hn] at h
    cases h
    apply List.prefix_rfl
  · rw [enter_of_not_mem hn] at h
    exact (List.prefix_append _ _).trans (isPrefix_of_survey h)

/-- The slot is set and leads to one of the nodes. -/
def LeadsInto (g : FlowGraph) (visited : List Node) (s : Slot) : Prop :=
  ∃ m ∈ visited, (g.content s.node).target? s.exit = some m

/-- When a survey comes to its end, the slots which were pending and the slots of the nodes which
were entered are set and lead to nodes visited. -/
theorem leadsInto_of_survey
    (h : g.survey visited pending = .ok visited') :
  (∀ s ∈ pending, g.LeadsInto visited' s)
    ∧ ∀ n ∈ visited', n ∉ visited → ∀ s ∈ g.slots n, g.LeadsInto visited' s
  := by
  fun_induction survey g visited pending with
  | case1 visited =>
      cases h
      constructor
      · simp
      · intro n hn hnew
        contradiction
  | case2 visited s pending hs => contradiction
  | case3 visited s pending m hs hm ih =>
      obtain ⟨hpending, hentered⟩ := ih h
      refine ⟨?_, hentered⟩
      intro s' hs'
      obtain rfl | hs' := List.mem_cons.mp hs'
      · exact ⟨m, (isPrefix_of_survey h).subset hm, hs⟩
      · apply hpending s' hs'
  | case4 visited s pending m hs hm ih =>
      obtain ⟨hpending, hentered⟩ := ih h
      constructor
      · intro s' hs'
        obtain rfl | hs' := List.mem_cons.mp hs'
        · exact ⟨m, (isPrefix_of_survey h).subset (by simp), hs⟩
        · apply hpending s' (List.mem_append_right _ hs')
      · intro n hn hnew s' hs'
        by_cases heq : n = m
        · subst heq
          apply hpending s' (List.mem_append_left _ hs')
        · apply hentered n hn _ s' hs'
          simp [hnew, heq]

/-- A survey stops at a slot of a node which can be reached, and the slot is not set. -/
theorem unset_of_survey
    (h : g.survey visited pending = .error s)
    (hpending : ∀ s ∈ pending, g.Reaches k s.node ∧ s.exit ∈ g.exits s.node) :
  g.Reaches k s.node ∧ s.exit ∈ g.exits s.node ∧ (g.content s.node).target? s.exit = none
  := by
  fun_induction survey g visited pending with
  | case1 visited => contradiction
  | case2 visited s' pending hs =>
      cases h
      obtain ⟨hreaches, hexit⟩ := hpending s List.mem_cons_self
      exact ⟨hreaches, hexit, hs⟩
  | case3 visited s' pending m hs hm ih =>
      apply ih h
      intro s'' hs''
      apply hpending s'' (List.mem_cons_of_mem _ hs'')
  | case4 visited s' pending m hs hm ih =>
      apply ih h
      intro s'' hs''
      obtain hs'' | hs'' := List.mem_append.mp hs''
      · obtain ⟨p, hp, rfl⟩ := List.mem_map.mp hs''
        have hreaches := (hpending s' List.mem_cons_self).1
        exact ⟨hreaches.tail ⟨s'.exit, hs⟩, hp⟩
      · apply hpending s'' (List.mem_cons_of_mem _ hs'')

/-- Where the survey of a graph comes to its end, it visits every node which can be reached, and
every slot of these nodes is set. -/
theorem leadsInto_of_depthFirst
    (h : g.depthFirst = .ok visited) (hn : g.Reaches .start n) :
  n ∈ visited ∧ ∀ s ∈ g.slots n, g.LeadsInto visited s
  := by
  have hsurvey : g.survey [.start] (g.slots .start) = .ok visited := h
  have hstart : .start ∈ visited := (isPrefix_of_survey hsurvey).subset (by simp)
  obtain ⟨hfirst, hentered⟩ := leadsInto_of_survey hsurvey
  have hclosed : ∀ m ∈ visited, ∀ s ∈ g.slots m, g.LeadsInto visited s := by
    intro m hm
    by_cases heq : m = .start
    · subst heq
      apply hfirst
    · apply hentered m hm (by simp [heq])
  induction hn with
  | refl => exact ⟨hstart, hclosed _ hstart⟩
  | @tail m n _ hedge ih =>
      obtain ⟨p, hp⟩ := hedge
      obtain ⟨k, hk, hp'⟩ := ih.2 ⟨m, p⟩ (List.mem_map_of_mem (mem_exits_of_target? hp))
      obtain rfl := Option.some.inj (hp.symm.trans hp')
      exact ⟨hk, hclosed n hk⟩

/-- The survey of a graph comes to its end exactly when every slot which can be reached is set. -/
theorem wired_iff_depthFirst :
  g.Wired ↔ ∃ visited, g.depthFirst = .ok visited
  := by
  constructor
  · intro hwired
    cases h : g.depthFirst with
    | ok visited => exact ⟨visited, rfl⟩
    | error s =>
        have hstart : ∀ s ∈ g.slots .start, g.Reaches .start s.node ∧ s.exit ∈ g.exits s.node := by
          intro s hs
          obtain ⟨p, hp, rfl⟩ := List.mem_map.mp hs
          exact ⟨Relation.ReflTransGen.refl, hp⟩
        have hsurvey : g.survey [.start] (g.slots .start) = .error s := h
        obtain ⟨hreaches, hexit, hunset⟩ := unset_of_survey hsurvey hstart
        obtain ⟨m, hm⟩ := hwired s.node hreaches s.exit hexit
        rw [hunset] at hm
        contradiction
  · intro ⟨visited, h⟩ n hn p hp
    obtain ⟨m, -, hm⟩ := (leadsInto_of_depthFirst h hn).2 ⟨n, p⟩ (List.mem_map_of_mem hp)
    exact ⟨m, hm⟩

end FlowGraph

end MethodFlow
