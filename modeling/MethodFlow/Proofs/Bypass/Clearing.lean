import MethodFlow.Proofs.Bypass.Sweep

/-!
# Which empty blocks are bypassed

Where a node can be reached along a route which avoids an empty block, no slot of the node leads
over empty blocks to that block once `FlowGraph.bypass` has come to its end
(`FlowGraph.exists_bypass`).  What may remain is an edge from a node to an empty block which
dominates the node.  A graph in which no empty block can be reached is left as it is
(`FlowGraph.bypass_of_clear`).
-/

namespace MethodFlow

namespace Bypass

open Walk

variable {g : FlowGraph} {n : Node} {s : Progress Path Work} {visit : Slot × Node → Run Unit}

/-! ### A walk which finds nothing to bypass -/

/-- The visitor keeps the state as long as the graph is `g`. -/
def VisitorIdles (g : FlowGraph) (visit : Slot × Node → Run Unit) : Prop :=
  ∀ reached n s, s.work.graph = g → g.Reaches .start n → visit (reached, n) s = .ok () s

/-- Following exits of a node keeps the state if the visits do. -/
theorem forM_follow_of_idles
    (hwired : g.Wired) (hvisit : VisitorIdles g visit) (hreaches : g.Reaches .start n)
    (hs : s.work.graph = g) {exits : List Exit} (hexits : exits ⊆ g.exits n) :
  (forM exits fun p => do visit (⟨n, p⟩, ← target ⟨n, p⟩) : Run Unit) s = .ok () s
  := by
  induction exits with
  | nil => rfl
  | cons p exits ih =>
      obtain ⟨hp, hexits⟩ := List.cons_subset.mp hexits
      obtain ⟨m, hm⟩ := hwired n hreaches p hp
      have htarget : (s.work.graph.content n).target? p = some m := by rw [hs, hm]
      rw [List.forM_cons, bind_apply, target_bind_apply htarget,
        hvisit ⟨n, p⟩ m s hs (hreaches.tail ⟨p, hm⟩)]
      apply ih hexits

theorem followAll_of_idles
    (hwired : g.Wired) (hvisit : VisitorIdles g visit) (hreaches : g.Reaches .start n)
    (hs : s.work.graph = g) :
  followAll visit n s = .ok () s
  := by
  apply forM_follow_of_idles hwired hvisit hreaches hs
  rw [hs]
  apply List.Subset.refl

/-- Visits keep the state where no empty block can be reached. -/
theorem visitorIdles_nest
    (hwired : g.Wired) (hclear : ∀ n, g.Reaches .start n → ¬ (g.content n).isEmptyBlock)
    (depth : Nat) :
  VisitorIdles g (Walk.nest step depth)
  := by
  induction depth with
  | zero =>
      intro reached n s _ _
      rfl
  | succ depth ih =>
      intro reached n s hs hreaches
      rw [nest_succ]
      cases htrail : Trail.enter? n s.trail with
      | none => apply node_of_refused htrail
      | some trail =>
          have hfollow := followAll_of_idles hwired ih hreaches (s := { s with trail }) hs
          have hstep := step_of_entered reached htrail (t := { s with trail }) (by
            rw [if_neg (hs ▸ hclear n hreaches)]
            apply hfollow)
          rw [hstep, Path.leave_of_enter? htrail]

end Bypass

namespace FlowGraph

/-! ### The empty blocks which remain -/

variable {g : FlowGraph} {n m e : Node}

/-- An edge from `n` leads to `m`, directly or over empty blocks. -/
def LeadsOver (g : FlowGraph) (n m : Node) : Prop :=
  ∃ k, g.Edge n k ∧ g.Slides k m

/-- Bypassing comes to its end where the slots which can be reached are set and the empty blocks do
not lead round in a circle, and the slots of a node pass every empty block which does not dominate
the node. -/
theorem exists_bypass
    (hwired : g.Wired) (hcycle : g.SkipsAcyclic) :
  ∃ blocks, g.bypass.blocks = .ok blocks
    ∧ ∀ n e, ¬ (g.content n).isEmptyBlock → (g.content e).isEmptyBlock →
      g.ReachesIn (· ≠ e) .start n → ∀ p, g.Passes g.bypass.graph e ⟨n, p⟩
  := by
  have hvisit := Bypass.visitorSweeps_nest hwired hcycle (g.unvisited_lt_nesting [.start])
  obtain ⟨s, hs, hfollowed⟩ := Bypass.exists_followAll hwired (fun _ => hvisit)
    g.not_isEmptyBlock_start Relation.ReflTransGen.refl g.settled_start
    (s := ⟨⟨[.start]⟩, ⟨g, []⟩⟩) rfl (Shortcut.refl g)
  have hwalk : Bypass.walk g ⟨Trail.empty, ⟨g, []⟩⟩
      = .ok () { s with trail := Trail.leave .start s.trail } := by
    have hentered : Trail.enter? Node.start (Trail.empty : Path) = some ⟨[.start]⟩ := rfl
    rw [Bypass.walk, Walk.node_of_entered hentered, hs]
  have hbypass : g.bypass = ⟨s.work.graph, .ok s.work.blocks⟩ := by rw [bypass, hwalk]
  use s.work.blocks
  rw [hbypass]
  use rfl
  intro n e hn he hreaches q
  apply hfollowed.passes (Shortcut.refl g) hn he
  · rw [List.mem_singleton]
    rintro rfl
    apply g.not_isEmptyBlock_start he
  · apply hreaches.mono
    intro i hi
    exact ⟨List.not_mem_nil, hi⟩

/-- A graph in which no empty block can be reached is left as it is. -/
theorem bypass_of_clear
    (hwired : g.Wired) (hclear : ∀ n, g.Reaches .start n → ¬ (g.content n).isEmptyBlock) :
  g.bypass = ⟨g, .ok []⟩
  := by
  have hvisit := Bypass.visitorIdles_nest hwired hclear g.nesting
  have hfollow := Bypass.followAll_of_idles hwired hvisit
    Relation.ReflTransGen.refl (s := ⟨⟨[.start]⟩, ⟨g, []⟩⟩) rfl
  have hentered : Trail.enter? Node.start (Trail.empty : Path) = some ⟨[.start]⟩ := rfl
  rw [bypass, Bypass.walk, Walk.node_of_entered hentered, hfollow]

/-- A shortcut of a graph in which every slot which can be reached is set is such a graph. -/
theorem Shortcut.wired
    {g' : FlowGraph} (h : g.Shortcut g') (hwired : g.Wired) :
  g'.Wired
  := by
  intro n hreaches p hp
  rw [h.exits] at hp
  obtain ⟨os, es, hrun⟩ := reaches_iff_exists_run.mp hreaches
  obtain ⟨k, hk⟩ := hwired n (reaches_iff_exists_run.mpr ⟨os, es, h.run_of_run hrun⟩) p hp
  obtain ⟨m, hm, -⟩ := h.exists_target? hk
  exact ⟨m, hm⟩

/-- No node leads, directly or over empty blocks, to an empty block which dominates it. -/
def Undominated (g : FlowGraph) : Prop :=
  ∀ n e, g.Reaches .start n → ¬ (g.content n).isEmptyBlock → g.LeadsOver n e →
    (g.content e).isEmptyBlock → ¬ g.Dominates e n

/-- After bypassing, only an edge to an empty block which dominates the node may be left. -/
theorem dominates_of_edge_bypass
    (hwired : g.Wired) (hcycle : g.SkipsAcyclic)
    (hn : ¬ (g.content n).isEmptyBlock) (hedge : g.bypass.graph.Edge n e)
    (he : (g.content e).isEmptyBlock) :
  g.Dominates e n
  := by
  intro hreaches
  obtain ⟨blocks, -, hpasses⟩ := exists_bypass hwired hcycle
  obtain ⟨p, hp⟩ := hedge
  apply hpasses n e hn he hreaches p e hp
  apply Relation.ReflTransGen.refl

/-- Bypassing leaves no empty block which can be reached if no node leads to an empty block which
dominates it. -/
theorem not_isEmptyBlock_of_reaches_bypass
    (hwired : g.Wired) (hcycle : g.SkipsAcyclic) (h : g.Undominated)
    (hreaches : g.bypass.graph.Reaches .start n) :
  ¬ (g.bypass.graph.content n).isEmptyBlock
  := by
  have hshort := g.shortcut_bypass
  rw [hshort.isEmptyBlock_iff]
  induction hreaches with
  | refl => simp [content, Content.isEmptyBlock]
  | @tail n e hreaches hedge ih =>
      intro he
      have hdom := dominates_of_edge_bypass hwired hcycle ih hedge he
      obtain ⟨p, hp⟩ := hedge
      obtain ⟨k, hk, hslide⟩ := hshort.exists_of_target? hp
      apply h n e ((hshort.reaches_iff ih).mp hreaches) ih ⟨k, ⟨p, hk⟩, hslide⟩ he hdom

/-- Bypassing once is enough if no node leads to an empty block which dominates it: no empty block
can be reached any more, and bypassing again changes nothing. -/
theorem bypass_bypass
    (hwired : g.Wired) (hcycle : g.SkipsAcyclic) (h : g.Undominated) :
  (∀ n, g.bypass.graph.Reaches .start n → ¬ (g.bypass.graph.content n).isEmptyBlock)
    ∧ g.bypass.graph.bypass = ⟨g.bypass.graph, .ok []⟩
  := by
  have hclear : ∀ n, g.bypass.graph.Reaches .start n → ¬ (g.bypass.graph.content n).isEmptyBlock :=
    fun n => not_isEmptyBlock_of_reaches_bypass hwired hcycle h
  use hclear
  apply bypass_of_clear (g.shortcut_bypass.wired hwired) hclear

/-- Where every slot which can be reached is set and the empty blocks do not lead round in a circle,
bypassing comes to its end, and every edge to an empty block which is left after it comes from a
node which the empty block dominates.  If there is no such edge before, directly or over empty
blocks, no empty block can be reached afterwards, and bypassing again changes nothing. -/
theorem bypass_clears_undominated
    (hwired : g.Wired) (hcycle : g.SkipsAcyclic) :
  (∃ blocks, g.bypass.blocks = .ok blocks)
    ∧ (∀ n e, ¬ (g.content n).isEmptyBlock → g.bypass.graph.Edge n e →
        (g.content e).isEmptyBlock → g.Dominates e n)
    ∧ (g.Undominated →
        (∀ n, g.bypass.graph.Reaches .start n → ¬ (g.bypass.graph.content n).isEmptyBlock)
          ∧ g.bypass.graph.bypass = ⟨g.bypass.graph, .ok []⟩
          ∧ g.bypass.graph.bypass.changed = .ok false)
  := by
  obtain ⟨blocks, hblocks, -⟩ := exists_bypass hwired hcycle
  use ⟨blocks, hblocks⟩
  constructor
  · intro n e hn hedge he
    apply dominates_of_edge_bypass hwired hcycle hn hedge he
  · intro h
    obtain ⟨hclear, hagain⟩ := bypass_bypass hwired hcycle h
    use hclear, hagain
    rw [hagain]
    rfl

/-- Where every empty block leads to a node which is none, the empty blocks do not lead round in a
circle. -/
theorem skipsAcyclic_of_nodes
    (h : ∀ n ∈ g.nodes, (g.content n).isEmptyBlock →
      ∀ m ∈ (g.content n).target? .next, ¬ (g.content m).isEmptyBlock) :
  g.SkipsAcyclic
  := by
  intro n _ hcircle
  obtain ⟨m, hskip, hslide⟩ := Relation.TransGen.head'_iff.mp hcircle
  have hm := h n (mem_nodes_of_target? hskip.2) hskip.1 m hskip.2
  rw [Slides.eq_of_not_isEmptyBlock hslide hm] at hskip
  apply hm hskip.1

/-- The graph of a method which does nothing in a loop: the body is an empty block. -/
def emptyRound : FlowGraph where
  parameters := []
  entry := some (.inner 0)
  cells := #[
    .jump (.bool true) (some (.inner 1)) (some .stop),
    .block [] (some (.inner 0))]

/-- In this graph no node leads to an empty block which dominates it. -/
theorem undominated_emptyRound :
  emptyRound.Undominated
  := by
  rintro n e - hn ⟨k, ⟨p, hp⟩, -⟩ he hdom
  have hempty : ∀ k ∈ emptyRound.nodes, (emptyRound.content k).isEmptyBlock ↔ k = .inner 1 := by
    decide
  have hothers : ∀ k ∈ emptyRound.nodes, k ≠ .inner 1 → emptyRound.exits k ≠ [] →
      k = .start ∨ k = .inner 0 := by
    decide
  have hmem := mem_nodes_of_target? hp
  obtain rfl := (hempty e (mem_nodes_of_isEmptyBlock he)).mp he
  apply hdom
  obtain rfl | rfl := hothers n hmem (mt (hempty n hmem).mpr hn)
    (List.ne_nil_of_mem (mem_exits_of_target? hp))
  · apply ReachesIn.refl
    simp
  · apply ReachesIn.step (by simp) ⟨.next, rfl⟩
    apply ReachesIn.refl
    simp

/-- Bypassing once is enough for this graph. -/
theorem bypass_clears_emptyRound :
  emptyRound.Wired ∧ emptyRound.SkipsAcyclic ∧ emptyRound.Undominated
    ∧ (∀ n, emptyRound.bypass.graph.Reaches .start n →
        ¬ (emptyRound.bypass.graph.content n).isEmptyBlock)
    ∧ emptyRound.bypass.graph.bypass.changed = .ok false
  := by
  have hwired : emptyRound.Wired := by
    apply wired_of_nodes
    decide
  have hcycle : emptyRound.SkipsAcyclic := by
    apply skipsAcyclic_of_nodes
    decide
  have hclears := (bypass_clears_undominated hwired hcycle).2.2 undominated_emptyRound
  exact ⟨hwired, hcycle, undominated_emptyRound, hclears.1, hclears.2.2⟩

/-- A graph with a loop which is entered at an empty block: the start leads to the block, and so
does the condition of the loop. -/
def roundOverEmptyBlock : FlowGraph where
  parameters := []
  entry := some (.inner 0)
  cells := #[
    .block [] (some (.inner 1)),
    .jump (.bool true) (some (.inner 0)) (some .stop)]

/-- Bypassing this graph leaves an edge to the empty block, so bypassing again changes the graph
again. -/
theorem bypass_roundOverEmptyBlock :
  roundOverEmptyBlock.Wired ∧ roundOverEmptyBlock.SkipsAcyclic
    ∧ roundOverEmptyBlock.bypass.changed = .ok true
    ∧ (∃ n, roundOverEmptyBlock.bypass.graph.Reaches .start n
        ∧ (roundOverEmptyBlock.bypass.graph.content n).isEmptyBlock)
    ∧ roundOverEmptyBlock.bypass.graph.bypass.changed = .ok true
  := by
  constructor
  · apply wired_of_nodes
    decide
  · constructor
    · apply skipsAcyclic_of_nodes
      decide
    · constructor
      · rfl
      · constructor
        · use .inner 0
          constructor
          · apply Relation.ReflTransGen.head ⟨.next, rfl⟩
            apply Relation.ReflTransGen.single ⟨.ifTrue, rfl⟩
          · rfl
        · rfl

end FlowGraph

end MethodFlow
