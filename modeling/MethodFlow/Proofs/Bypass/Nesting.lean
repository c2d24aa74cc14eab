import MethodFlow.Proofs.Bypass.Meaning

/-!
# How deep visits of the walk are nested

A visit of the walk which bypasses empty blocks ends with the path it starts with, and no step adds
a node to the graph.  So the visits inside a node have fewer nodes left off their path than the
visit of the node, although slots are led elsewhere on the way: they come to the same however deep
they may be nested, once they may be nested as deep as there are nodes
(`Bypass.walk_eq_of_size_le`).
-/

namespace MethodFlow

namespace Bypass

open Walk

variable {γ : Type} {part : Progress Path Work → γ} {n : Node} {s : Progress Path Work}
  {visit visit' : Slot × Node → Run Unit}

/-! ### What steps of the walk keep -/

theorem keeps_target
    (part : Progress Path Work → γ) (slot : Slot) :
  Keeps part (target slot)
  := by
  intro s
  have htarget : target slot s = Walk.target s.work.graph slot s := rfl
  rw [htarget, target_apply]
  cases s.work.graph.target slot <;> rfl

/-- The part of the state depends on the work through the nodes of the graph alone. -/
def ReadsNodes (part : Progress Path Work → γ) : Prop :=
  ∀ s work, work.graph.nodes = s.work.graph.nodes → part { s with work } = part s

/-- Leading a slot elsewhere keeps what depends on the work through the nodes alone. -/
theorem keeps_redirect
    (hpart : ReadsNodes part) (slot : Slot) (m : Node) :
  Keeps part (redirect slot m)
  := by
  intro s
  change part (final ((MonadExcept.ofExcept (s.work.graph.setTarget slot m) >>= _ : Run Unit) s))
    = part s
  cases h : s.work.graph.setTarget slot m with
  | error e => rfl
  | ok g =>
      obtain ⟨-, rfl⟩ := FlowGraph.setTarget_eq_ok_iff.mp h
      apply hpart
      apply FlowGraph.nodes_redirect

theorem keeps_count
    (hpart : ReadsNodes part) (n : Node) :
  Keeps part (count n)
  := fun s => hpart s _ rfl

theorem keeps_follow
    (hvisit : ∀ i, Keeps part (visit i)) (slot : Slot) :
  Keeps part (do visit (slot, ← target slot))
  := by
  apply keeps_bind (keeps_target part slot)
  intro m
  apply hvisit

theorem keeps_followAll
    (hvisit : ∀ i, Keeps part (visit i)) (n : Node) :
  Keeps part (followAll visit n)
  := by
  intro s
  apply keeps_forM
  intro p _
  apply keeps_follow hvisit

/-- Going around an empty block keeps what the visits keep and what depends on the work through the
nodes alone. -/
theorem keeps_around
    (hpart : ReadsNodes part) (hvisit : ∀ i, Keeps part (visit i)) (reached : Slot) (n : Node) :
  Keeps part (do
    let m ← target ⟨n, .next⟩
    redirect reached m
    count n
    visit (reached, m))
  := by
  apply keeps_bind (keeps_target part _)
  intro m
  apply keeps_bind (keeps_redirect hpart reached m)
  intro _
  apply keeps_bind (keeps_count hpart n)
  intro _
  apply hvisit

/-- What is kept by entering and leaving nodes and depends on the work through the nodes alone is
kept by a step if the visits behind it keep it. -/
theorem keeps_step
    (hpart : ReadsNodes part)
    (hnode : ∀ (n : Node) (inside : Run Unit), Keeps part inside →
      Keeps part (Walk.node n (pure ()) inside))
    (hvisit : ∀ i, Keeps part (visit i)) (i : Slot × Node) :
  Keeps part (step visit i)
  := by
  obtain ⟨reached, n⟩ := i
  apply hnode
  intro s
  change part (final ((if (s.work.graph.content n).isEmptyBlock then _ else _ : Run Unit) s)) = _
  split
  case isTrue => apply keeps_around hpart hvisit reached n
  case isFalse => apply keeps_followAll hvisit n

theorem readsNodes_trail :
  ReadsNodes (Progress.trail : Progress Path Work → Path)
  := fun _ _ _ => rfl

theorem keeps_trail_nest
    (depth : Nat) (i : Slot × Node) :
  Keeps Progress.trail (Walk.nest step depth i)
  := by
  apply keeps_nest
  intro visit
  apply keeps_step readsNodes_trail
  intro n inside
  apply keeps_trail_node Path.reversible n (keeps_pure ())

theorem keeps_nodes_nest
    (depth : Nat) (i : Slot × Node) :
  Keeps (fun s => s.work.graph.nodes) (Walk.nest step depth i)
  := by
  apply keeps_nest
  intro visit
  apply keeps_step (fun _ _ h => h)
  intro n inside
  apply keeps_work_node (fun work : Work => work.graph.nodes) n (keeps_pure ())

/-! ### Visits nested deep enough -/

/-- How many nodes are left off the path. -/
def left (s : Progress Path Work) : Nat :=
  s.work.graph.unvisited s.trail.nodes

/-- The number of nodes left depends on the work through the nodes alone. -/
theorem readsNodes_left :
  ReadsNodes left
  := by
  intro s work h
  simp only [left, FlowGraph.unvisited, h]

/-- A visit nested to any depth keeps the number of nodes left. -/
theorem keeps_left_nest
    (depth : Nat) (i : Slot × Node) :
  Keeps left (Walk.nest step depth i)
  := by
  intro s
  have hnodes := keeps_nodes_nest depth i s
  have htrail := keeps_trail_nest depth i s
  simp only [left, FlowGraph.unvisited, hnodes, htrail]

theorem left_lt_of_enter?
    {trail : Path} (h : Trail.enter? n s.trail = some trail) (hn : n ∈ s.work.graph.nodes) :
  left { s with trail } < left s
  := by
  simp only [Path.enter?_eq, Option.ite_none_left_eq_some, Option.some.injEq] at h
  obtain ⟨hnew, rfl⟩ := h
  apply FlowGraph.unvisited_cons_lt hn hnew

/-- Following all exits of a node comes to the same if visits do while no more nodes are left. -/
theorem followAll_congr
    (hvisit : ∀ i, Keeps left (visit i))
    (h : n ∈ s.work.graph.nodes → ∀ i s', left s' = left s → visit i s' = visit' i s') :
  followAll visit n s = followAll visit' n s
  := by
  apply forM_congr_of_keeps fun p _ => keeps_follow hvisit ⟨n, p⟩
  intro p hp s₁ hs₁
  apply bind_congr_of_keeps (keeps_target left _)
  intro m s₂ hs₂
  apply h (FlowGraph.mem_nodes_of_mem_exits hp)
  rw [hs₂, hs₁]

/-- Visits come to the same when they may be nested to any depth above the number of nodes left. -/
theorem nest_step_eq
    {depth depth' : Nat} (h : left s < depth) (h' : left s < depth') (i : Slot × Node) :
  Walk.nest step depth i s = Walk.nest step depth' i s
  := by
  apply nest_eq_nest left _ h h'
  rintro depth depth' ⟨reached, n⟩ s hlater
  apply node_congr
  intro trail htrail
  have hlt := left_lt_of_enter? htrail
  change (if (s.work.graph.content n).isEmptyBlock then _ else _ : Run Unit) { s with trail }
    = (if (s.work.graph.content n).isEmptyBlock then _ else _ : Run Unit) { s with trail }
  split
  case isTrue hempty =>
    apply bind_congr_of_keeps (keeps_target left _)
    intro m s₁ hs₁
    apply bind_congr_of_keeps (keeps_redirect readsNodes_left reached m)
    intro _ s₂ hs₂
    apply bind_congr_of_keeps (keeps_count readsNodes_left n)
    intro _ s₃ hs₃
    apply hlater
    rw [hs₃, hs₂, hs₁]
    apply hlt (FlowGraph.mem_nodes_of_isEmptyBlock hempty)
  case isFalse =>
    apply followAll_congr (keeps_left_nest depth)
    intro hn i s' hs'
    apply hlater
    rw [hs']
    apply hlt hn

/-- The walk of a graph comes to the same however deep its visits may be nested, once they may be
nested as deep as there are nodes. -/
theorem walk_eq_of_size_le
    {g : FlowGraph} {depth : Nat} (h : g.size ≤ depth) :
  Walk.node .start (pure ()) (followAll (Walk.nest step depth) .start) ⟨Trail.empty, ⟨g, []⟩⟩
    = walk g ⟨Trail.empty, ⟨g, []⟩⟩
  := by
  apply node_congr
  intro trail htrail
  apply followAll_congr (keeps_left_nest depth)
  intro hstart i s' hs'
  have hlt : left s' < g.size := by
    rw [hs']
    apply Nat.lt_of_lt_of_le (left_lt_of_enter? htrail hstart)
    apply Nat.le_of_lt_succ (g.unvisited_lt_nesting _)
  apply nest_step_eq (Nat.lt_of_lt_of_le hlt h) (Nat.lt_succ_of_lt hlt)

end Bypass

end MethodFlow
