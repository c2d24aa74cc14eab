import MethodFlow.Proofs.Assembly.Evolution

/-!
# Making nodes

When the cursor enters a new node, the slot through which it does so and the slots which wait for
the labels at the cursor are led to the node: `Assembly.Grown`.  What an assembly keeps then is said
in `Assembly.Grown.sound` and `Assembly.Grown.evolves`.
-/

namespace MethodFlow

open LinearCode

namespace Assembly

variable {a a' : Assembly} {l : Label} {s : Slot} {n b : Node}

/-- The node which is made next. -/
def next (a : Assembly) : Node :=
  .inner a.graph.cells.size

/-- A slot which is led to the node which is made next. -/
def Enters (a : Assembly) (s : Slot) : Prop :=
  a.cursor.fallsFrom = some s ∨ ∃ l ∈ a.cursor.placed, (l, s) ∈ a.deferred

/-- The graph `g` is that of `a` with a new node of the given content, entered by the cursor. -/
structure Grown (a : Assembly) (c : Content) (g : FlowGraph) : Prop where
  parameters : g.parameters = a.graph.parameters
  size : g.cells.size = a.graph.cells.size + 1
  kind : ∀ m ∈ a.graph.nodes, g.kind m = a.graph.kind m
  observations : ∀ m ∈ a.graph.nodes, (g.content m).observations = (a.graph.content m).observations
  led : ∀ s, a.Enters s → (g.content s.node).target? s.exit = some a.next
  kept : ∀ s, s.node ∈ a.graph.nodes → ¬ a.Enters s →
    (g.content s.node).target? s.exit = (a.graph.content s.node).target? s.exit
  kind_next : g.kind a.next = c.kind
  observations_next : (g.content a.next).observations = c.observations
  unset_next : ∀ p, (g.content a.next).target? p = none

theorem Sound.label_unique
    (h : a.Sound) {l' : Label} (hl : (l, s) ∈ a.deferred) (hl' : (l', s) ∈ a.deferred) :
  l = l'
  := by
  have hnodup := (List.nodup_append.mp h.nodup).2.1
  apply (Prod.mk.inj (List.inj_on_of_nodup_map hnodup hl hl' rfl)).1

theorem Sound.mem_nodes
    (h : a.Sound) (hs : s ∈ a.openSlots) :
  s.node ∈ a.graph.nodes
  := by
  apply FlowGraph.mem_nodes_of_mem_exits (h.has s hs)

/-- What is led to the next node is open. -/
theorem Enters.mem_openSlots
    (h : a.Enters s) :
  s ∈ a.openSlots
  := by
  rw [Assembly.mem_openSlots]
  obtain h | ⟨l, -, h⟩ := h
  · left
    apply h
  · right
    exact ⟨l, h⟩

/-- What waits for a label which is not placed at the cursor is not led to the next node. -/
theorem Sound.not_enters
    (h : a.Sound) (hs : (l, s) ∈ a.deferred) (hl : l ∉ a.cursor.placed) :
  ¬ a.Enters s
  := by
  rintro (hfalls | ⟨l', hl', hs'⟩)
  · apply h.not_mem_deferred hfalls
    apply List.mem_map.mpr ⟨(l, s), hs, rfl⟩
  · rw [h.label_unique hs hs'] at hl
    apply hl hl'

theorem ne_next_of_mem
    (hn : n ∈ a.graph.nodes) :
  n ≠ a.next
  := by
  rintro rfl
  simp [next, FlowGraph.inner_mem_nodes_iff] at hn

variable {c : Content} {g : FlowGraph}

theorem Grown.nodes
    (hgrown : a.Grown c g) :
  g.nodes = a.graph.nodes ++ [a.next]
  := by
  rw [FlowGraph.nodes, hgrown.size, List.range_succ, List.map_append]
  rfl

theorem Grown.eq_next
    (hgrown : a.Grown c g) (hold : n ∉ a.graph.nodes) (hn : n ∈ g.nodes) :
  n = a.next
  := by
  rw [hgrown.nodes, List.mem_append] at hn
  apply List.mem_singleton.mp (hn.resolve_left hold)

/-- A graph which has grown is determined by the graph there was, what entered the new node and what
the node holds. -/
theorem Grown.unique
    {g' : FlowGraph} (h : a.Grown c g) (h' : a'.Grown c g') (hgraph : a.graph = a'.graph)
    (henters : ∀ s, a.Enters s ↔ a'.Enters s) :
  g = g'
  := by
  have hnext : a'.next = a.next := by rw [next, next, hgraph]
  apply FlowGraph.ext_content
  · rw [h.parameters, h'.parameters, hgraph]
  · rw [h.size, h'.size, hgraph]
  · intro m
    by_cases hm : m ∈ a.graph.nodes
    · have hm' : m ∈ a'.graph.nodes := hgraph ▸ hm
      apply Content.ext
      · apply (h.kind m hm).trans
        rw [hgraph]
        apply (h'.kind m hm').symm
      · rw [h.observations m hm, h'.observations m hm', hgraph]
      · intro p
        by_cases hp : a.Enters ⟨m, p⟩
        · rw [h.led ⟨m, p⟩ hp, h'.led ⟨m, p⟩ ((henters _).mp hp), hnext]
        · rw [h.kept ⟨m, p⟩ hm hp, h'.kept ⟨m, p⟩ hm' (hp ∘ (henters _).mpr), hgraph]
    · by_cases hm' : m = a.next
      · subst hm'
        apply Content.ext
        · apply h.kind_next.trans
          rw [← hnext]
          apply h'.kind_next.symm
        · rw [h.observations_next, ← hnext, h'.observations_next]
        · intro p
          rw [h.unset_next, ← hnext, h'.unset_next]
      · rw [FlowGraph.content_of_not_mem_nodes, FlowGraph.content_of_not_mem_nodes]
        · intro hmem
          apply hm'
          rw [← hnext]
          apply h'.eq_next (hgraph ▸ hm) hmem
        · intro hmem
          apply hm' (h.eq_next hm hmem)

/-- Entering a node makes the graph grow. -/
theorem Sound.land
    (h : a.Sound) (cell : Cell) (hcell : ∀ p, cell.content.target? p = none) :
  ∃ g, land { a with graph := { a.graph with cells := a.graph.cells.push cell } } a.next
      = .ok (a.landed a.next g)
    ∧ a.Grown cell.content g
  := by
  have hold : ∀ m ∈ a.graph.nodes,
      FlowGraph.content { a.graph with cells := a.graph.cells.push cell } m
        = a.graph.content m := by
    intro m hm
    rw [FlowGraph.content_push]
    apply if_neg (ne_next_of_mem hm)
  have hnew : FlowGraph.content { a.graph with cells := a.graph.cells.push cell } a.next
      = cell.content := by
    rw [FlowGraph.content_push, next, if_pos rfl]
  have hexits : ∀ s ∈ a.openSlots,
      s.exit ∈ FlowGraph.exits { a.graph with cells := a.graph.cells.push cell } s.node := by
    intro s hs
    rw [FlowGraph.exits, FlowGraph.kind, hold s.node (h.mem_nodes hs)]
    apply h.has s hs
  obtain ⟨g, hg, hrewired⟩ := land_eq
    (a := { a with graph := { a.graph with cells := a.graph.cells.push cell } })
    (fun s hs => hexits s (mem_openSlots.mpr (Or.inl hs)))
    (fun w hw => hexits w.2 (mem_openSlots.mpr (Or.inr ⟨w.1, hw⟩))) a.next
  use g, hg
  constructor
  · apply hrewired.parameters
  · simp [hrewired.size]
  · intro m hm
    rw [hrewired.kind, FlowGraph.kind, hold m hm]
    rfl
  · intro m hm
    rw [hrewired.observations, hold m hm]
  · apply hrewired.led
  · intro s hs henters
    rw [hrewired.kept s henters, hold s.node hs]
  · rw [hrewired.kind, FlowGraph.kind, hnew]
  · rw [hrewired.observations, hnew]
  · intro p
    have hnext := hrewired.kept ⟨a.next, p⟩ (fun henters =>
      ne_next_of_mem (h.mem_nodes (Enters.mem_openSlots henters)) rfl)
    rw [hnext, hnew]
    apply hcell

/-- The invariant is kept when the cursor enters a new node and leaves it again. -/
theorem Grown.sound
    (hgrown : a.Grown c g) (h : a.Sound) :
  ((a.landed a.next g).moveTo .nowhere).Sound
  := by
  have hopen : ∀ s ∈ ((a.landed a.next g).moveTo .nowhere).openSlots,
      s ∈ a.openSlots ∧ ¬ a.Enters s := by
    intro s hs
    obtain hs | ⟨l, hs⟩ := mem_openSlots.mp hs
    · contradiction
    · obtain ⟨hs, hl⟩ := List.mem_filter.mp hs
      constructor
      · apply mem_openSlots.mpr (Or.inr ⟨l, hs⟩)
      · apply h.not_enters hs (of_decide_eq_true hl)
  constructor
  · intro s hs
    obtain ⟨hs, -⟩ := hopen s hs
    change s.exit ∈ g.exits s.node
    rw [FlowGraph.exits, hgrown.kind s.node (h.mem_nodes hs)]
    apply h.has s hs
  · intro s hs
    obtain ⟨hs, henters⟩ := hopen s hs
    apply (hgrown.kept s (h.mem_nodes hs) henters).trans
    apply h.unset s hs
  · have hnodup := (List.nodup_append.mp h.nodup).2.1
    apply List.Sublist.nodup _ hnodup
    apply List.Sublist.map
    apply List.filter_sublist
  · intro l s hs
    obtain ⟨hs, hl⟩ := List.mem_filter.mp hs
    rw [node?_moveTo, node?_landed, if_neg (of_decide_eq_true hl)]
    apply h.unbound l s hs
  · intro b hb
    contradiction

/-- The slots of a new node are free when the cursor has left it. -/
theorem Grown.free
    (hgrown : a.Grown c g) (h : a.Sound) {p : Exit} (hp : p ∈ c.kind.exits) :
  ((a.landed a.next g).moveTo .nowhere).Free ⟨a.next, p⟩
  where
  has := by
    change p ∈ g.exits a.next
    rw [FlowGraph.exits, hgrown.kind_next]
    apply hp
  unset := hgrown.unset_next p
  notMem hs := by
    obtain hs | ⟨l, hs⟩ := mem_openSlots.mp hs
    · contradiction
    · have hopen := mem_openSlots.mpr (Or.inr ⟨l, List.mem_of_mem_filter hs⟩)
      apply ne_next_of_mem (h.mem_nodes hopen) rfl

/-- What an assembly keeps when the cursor enters a new node, whether it stays there or not. -/
theorem Grown.evolves
    (hgrown : a.Grown c g) (h : a.Sound) {i : Instruction} (hi : i.placed = []) (cursor : Cursor)
    (hcursor : cursor.placed = []) (hinside : ∀ m ∈ a.graph.nodes, cursor ≠ .inside m) :
  a.Evolves [i] [] ((a.landed a.next g).moveTo cursor)
  := by
  have hplaced : placed [i] = [] := by
    rw [placed_cons, hi]
    rfl
  constructor
  · change a.graph.cells.size ≤ g.cells.size
    rw [hgrown.size]
    apply Nat.le_succ
  · intro m hm _
    exact ⟨hinside m hm, hgrown.kind m hm, hgrown.observations m hm⟩
  · intro rest l _
    rw [Assembly.home, if_neg (by simp [hcursor]), node?_moveTo, node?_landed,
      Assembly.home, List.singleton_append, landing_cons hi, next]
  · intro rest l hl
    rw [hplaced] at hl
    contradiction
  · rintro rest s n (hs | ⟨hcursor, hn⟩ | ⟨hs, hn⟩)
    · apply Promises.led
      apply (hgrown.kept s (FlowGraph.mem_nodes_of_target? hs) _).trans hs
      intro henters
      rw [h.unset s henters.mem_openSlots] at hs
      contradiction
    · apply Promises.led
      rw [List.singleton_append, landing_cons hi] at hn
      rw [← hn]
      apply hgrown.led s
      left
      rw [hcursor]
      rfl
    · rename_i l
      have hl : l ∈ a.cursor.placed := by
        by_contra hl
        rw [Assembly.home, if_neg hl, h.unbound l s hs] at hn
        contradiction
      rw [Assembly.home, if_pos hl, List.singleton_append, landing_cons hi] at hn
      apply Promises.led
      rw [← Option.some.inj hn]
      apply hgrown.led s
      right
      exact ⟨l, hl, hs⟩
  · intro l s hs _ hhome
    apply List.mem_filter.mpr ⟨hs, _⟩
    apply decide_eq_true (home_eq_none_iff.mp hhome).1
  · intro l s hs
    left
    apply List.mem_of_mem_filter hs

end Assembly

end MethodFlow
