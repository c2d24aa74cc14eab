import MethodFlow.Proofs.Graph.Run
import MethodFlow.Walk.Basic

/-!
# Nodes off a path

`FlowGraph.nodes` lists the nodes of a graph, and `FlowGraph.unvisited` counts those which are not
on a path.  The number gets smaller with each node which a path is led through, so it bounds how
deep visits along a path are nested.
-/

namespace MethodFlow

namespace FlowGraph

/-- The nodes of a graph in the order of creation. -/
def nodes (g : FlowGraph) : List Node :=
  .start :: .stop :: (List.range g.cells.size).map .inner

/-- The number of nodes which are not on a path. -/
def unvisited (g : FlowGraph) (path : List Node) : Nat :=
  (g.nodes.filter (· ∉ path)).length

@[simp]
theorem length_nodes
    (g : FlowGraph) :
  g.nodes.length = g.size
  := by
  simp [nodes, size]

theorem inner_mem_nodes_iff
    {g : FlowGraph} {i : Nat} :
  .inner i ∈ g.nodes ↔ i < g.cells.size
  := by
  simp [nodes]

theorem nodes_eq_of_size
    {g g' : FlowGraph} (h : g'.cells.size = g.cells.size) :
  g'.nodes = g.nodes
  := by
  rw [nodes, nodes, h]

theorem mem_nodes_of_size_le
    {g g' : FlowGraph} {n : Node} (h : g.cells.size ≤ g'.cells.size) (hn : n ∈ g.nodes) :
  n ∈ g'.nodes
  := by
  cases n with
  | inner i =>
      rw [inner_mem_nodes_iff] at hn ⊢
      omega
  | _ => simp [nodes]

@[simp]
theorem nodes_redirect
    (g : FlowGraph) (s : Slot) (m : Node) :
  (g.redirect s m).nodes = g.nodes
  := by
  unfold redirect nodes
  split <;> simp

/-- A handle to no node of the graph reads as a stop. -/
theorem content_of_not_mem_nodes
    {g : FlowGraph} {n : Node} (h : n ∉ g.nodes) :
  g.content n = .stop
  := by
  cases n with
  | start => simp [nodes] at h
  | stop => rfl
  | inner i =>
      rw [inner_mem_nodes_iff, Nat.not_lt] at h
      simp [content, h]

theorem mem_nodes_of_isEmptyBlock
    {g : FlowGraph} {n : Node} (h : (g.content n).isEmptyBlock) :
  n ∈ g.nodes
  := by
  by_contra hn
  rw [content_of_not_mem_nodes hn] at h
  contradiction

theorem mem_nodes_of_mem_exits
    {g : FlowGraph} {n : Node} {p : Exit} (h : p ∈ g.exits n) :
  n ∈ g.nodes
  := by
  by_contra hn
  rw [exits, FlowGraph.kind, content_of_not_mem_nodes hn] at h
  contradiction

theorem mem_exits_of_target?
    {g : FlowGraph} {n m : Node} {p : Exit} (h : (g.content n).target? p = some m) :
  p ∈ g.exits n
  := by
  by_contra hmem
  have hnone := Content.target?_eq_none hmem
  rw [h] at hnone
  contradiction

theorem mem_nodes_of_target?
    {g : FlowGraph} {n m : Node} {p : Exit} (h : (g.content n).target? p = some m) :
  n ∈ g.nodes
  := by
  apply mem_nodes_of_mem_exits (mem_exits_of_target? h)

theorem wired_of_nodes
    {g : FlowGraph} (h : ∀ n ∈ g.nodes, ∀ p ∈ g.exits n, ((g.content n).target? p).isSome) :
  g.Wired
  := by
  intro n _ p hp
  apply Option.isSome_iff_exists.mp
  apply h n (mem_nodes_of_mem_exits hp) p hp

theorem unvisited_nil
    (g : FlowGraph) :
  g.unvisited [] = g.size
  := by
  rw [← length_nodes, unvisited, List.filter_eq_self.mpr]
  simp

/-- The more nodes are on a path, the fewer are off it. -/
theorem unvisited_le_of_subset
    {g : FlowGraph} {path path' : List Node} (h : path ⊆ path') :
  g.unvisited path' ≤ g.unvisited path
  := by
  unfold unvisited
  rw [← List.countP_eq_length_filter, ← List.countP_eq_length_filter]
  apply List.countP_mono_left
  intro n _ hn
  simp only [decide_eq_true_eq] at hn ⊢
  apply mt (@h n) hn

/-- No path has as many nodes off it as visits may be nested deep. -/
theorem unvisited_lt_nesting
    (g : FlowGraph) (path : List Node) :
  g.unvisited path < g.nesting
  := by
  have hle := unvisited_le_of_subset (g := g) (List.nil_subset path)
  rw [unvisited_nil] at hle
  unfold nesting
  omega

/-- A path led through a further node leaves fewer nodes off it. -/
theorem unvisited_cons_lt
    {g : FlowGraph} {n : Node} {path : List Node} (hmem : n ∈ g.nodes) (h : n ∉ path) :
  g.unvisited (n :: path) < g.unvisited path
  := by
  have hfilter : g.nodes.filter (· ∉ n :: path)
      = (g.nodes.filter (· ∉ path)).filter (· ≠ n) := by
    rw [List.filter_filter]
    congr 1
    funext m
    simp
  unfold unvisited
  rw [hfilter]
  apply List.length_filter_lt_length_iff_exists.mpr
  use n
  simp [hmem, h]

end FlowGraph

end MethodFlow
