import MethodFlow.Proofs.Assignment.Shortcut
import MethodFlow.Proofs.Assignment.Survey
import MethodFlow.Proofs.Bypass.Sweep

/-!
# For which graphs bypassing the empty blocks comes to its end

The graph as changed so far is a shortcut of the graph before, and from each node the check of
definite assignment finds the same as from the nodes to which it slides.  So a visit of the walk
fails exactly as the check does behind the same node of the graph before
(`Bypass.visitorEnds_nest`), and the whole walk fails where the survey stops
(`FlowGraph.bypass_of_depthFirst`).
-/

namespace MethodFlow

namespace Bypass

open Assignment (Report explore exploreExit)

open Walk

variable {g : FlowGraph} {path : List Node} {scopes : List Scope} {reached : Slot} {n m : Node}
  {p : Exit} {ps : List Exit} {s : Progress Path Work} {visit : Slot × Node → Run Unit}

/-- A computation fails with the failure, or if there is none comes back to where it started. -/
inductive Ends (s : Progress Path Work) :
    Option Failure → EStateM.Result Failure (Progress Path Work) Unit → Prop where
  | ok (work : Work) : Ends s none (.ok () { s with work })
  | error (e : Failure) (t : Progress Path Work) : Ends s (some e) (.error e t)

theorem Ends.of_work
    {e : Option Failure} {work : Work} {r : EStateM.Result Failure (Progress Path Work) Unit}
    (h : Ends { s with work } e r) :
  Ends s e r
  := by
  cases h with
  | ok work => apply Ends.ok
  | error e t => apply Ends.error

theorem Ends.bind
    {e e' : Option Failure} {x y : Run Unit} (h : Ends s e (x s))
    (hy : ∀ work, x s = .ok () { s with work } → Ends { s with work } e' (y { s with work })) :
  Ends s (e.or e') ((x >>= fun _ => y) s)
  := by
  rw [bind_apply]
  generalize x s = result at h hy ⊢
  cases h with
  | ok work => apply (hy work rfl).of_work
  | error e t => apply Ends.error

/-- The visitor fails just as the check does behind the node in the graph before the walk, wherever
`path` leads there. -/
def VisitorEnds (g : FlowGraph) (path : List Node) (visit : Slot × Node → Run Unit) : Prop :=
  ∀ reached n s scopes, Ready s reached n → s.trail.nodes = path → g.Shortcut s.work.graph →
    g.Settled path n → Ends s (explore g path scopes n).failure (visit (reached, n) s)

theorem target_bind_of_unset
    {α : Type} (hshort : g.Shortcut s.work.graph) (hp : p ∈ g.exits n)
    (h : (g.content n).target? p = none) (f : Node → Run α) :
  (target ⟨n, p⟩ >>= f) s = .error (.unsetSlot (g.kind n) p) s
  := by
  have htarget : target ⟨n, p⟩ s = Walk.target s.work.graph ⟨n, p⟩ s := rfl
  rw [← hshort.exits] at hp
  rw [bind_apply, htarget, target_apply,
    FlowGraph.target_of_unset hp (hshort.target?_eq_none h), hshort.kind]

theorem explore_of_slides
    (hsettled : ∀ m, g.Settled path m) (hslide : g.Slides n m) :
  explore g path scopes n = explore g path scopes m
  := by
  apply Assignment.explore_eq_of_slides (FlowGraph.Shortcut.refl g) hslide _ (hsettled n)
    (hsettled m) (Assignment.Similar.refl scopes)
  intro k _
  rfl

/-- Following an exit of a node which is no empty block fails as the check does at the exit. -/
theorem ends_follow
    (hvisit : VisitorEnds g path visit) (hn : ¬ (g.content n).isEmptyBlock)
    (hsettled : ∀ m, g.Settled path m) (hp : p ∈ g.exits n) (htrail : s.trail.nodes = path)
    (hshort : g.Shortcut s.work.graph) :
  Ends s (exploreExit g path scopes n p).failure
    ((do visit (⟨n, p⟩, ← target ⟨n, p⟩) : Run Unit) s)
  := by
  cases hk : (g.content n).target? p with
  | some k =>
      obtain ⟨m, hm, hslide⟩ := hshort.exists_target? hk
      rw [target_bind_apply hm, Assignment.exploreExit_eq hk, explore_of_slides hsettled hslide]
      apply hvisit ⟨n, p⟩ m s _ ⟨hm, _⟩ htrail hshort (hsettled m)
      rwa [hshort.isEmptyBlock_iff]
  | none =>
      rw [target_bind_of_unset hshort hp hk, exploreExit, FlowGraph.target_of_unset hp hk]
      apply Ends.error

/-- Following exits of a node which is no empty block fails as the check does at the exits. -/
theorem ends_forM_follow
    (hvisit : n ∈ g.nodes → VisitorEnds g path visit) (hshortens : VisitorShortens visit)
    (hn : ¬ (g.content n).isEmptyBlock) (hsettled : ∀ m, g.Settled path m) (hps : ps ⊆ g.exits n)
    (htrail : s.trail.nodes = path) (hshort : g.Shortcut s.work.graph) :
  Ends s (Report.all (ps.map (exploreExit g path scopes n))).failure
    ((forM ps fun p => do visit (⟨n, p⟩, ← target ⟨n, p⟩) : Run Unit) s)
  := by
  induction ps generalizing s with
  | nil => apply Ends.ok
  | cons p ps ih =>
      obtain ⟨hp, hps⟩ := List.cons_subset.mp hps
      rw [List.map_cons, List.forM_cons]
      change Ends s (Report.andThen _ (Report.all _)).failure _
      rw [Report.failure_andThen]
      have hvisit' := hvisit (FlowGraph.mem_nodes_of_mem_exits hp)
      apply Ends.bind (ends_follow hvisit' hn hsettled hp htrail hshort)
      intro work hwork
      apply ih hps
      · apply htrail
      · have hfirst := shortens_follow hshortens n p s (mt (hshort.isEmptyBlock_iff n).mp hn)
        rw [hwork] at hfirst
        apply hshort.trans hfirst

/-- Following all exits of a node which is no empty block fails as the check does at the exits. -/
theorem ends_followAll
    (hvisit : n ∈ g.nodes → VisitorEnds g path visit) (hshortens : VisitorShortens visit)
    (hn : ¬ (g.content n).isEmptyBlock) (hsettled : ∀ m, g.Settled path m)
    (htrail : s.trail.nodes = path) (hshort : g.Shortcut s.work.graph) :
  Ends s (Report.all ((g.exits n).map (exploreExit g path scopes n))).failure (followAll visit n s)
  := by
  change Ends s _
    ((forM (s.work.graph.exits n) fun p => do visit (⟨n, p⟩, ← target ⟨n, p⟩) : Run Unit) s)
  rw [hshort.exits]
  apply ends_forM_follow hvisit hshortens hn hsettled (List.Subset.refl _) htrail hshort

/-- Going around an empty block fails as the check does at the block. -/
theorem ends_around
    (hvisit : n ∈ g.nodes → VisitorEnds g (n :: path) visit) (hpath : n ∉ path)
    (hempty : (g.content n).isEmptyBlock) (hsettled : g.Settled path n) (hready : Ready s reached n)
    (htrail : s.trail.nodes = n :: path) (hshort : g.Shortcut s.work.graph) :
  Ends s (explore g path scopes n).failure
    ((do
      let m ← target ⟨n, .next⟩
      redirect reached m
      count n
      visit (reached, m) : Run Unit) s)
  := by
  have hexits : g.exits n = [.next] := FlowGraph.exits_of_isEmptyBlock hempty
  cases hm : (g.content n).target? .next with
  | some m =>
      have hskip : g.Skips n m := ⟨hempty, hm⟩
      have hskip' : s.work.graph.Skips n m := hshort.skips_iff.mpr hskip
      rw [Assignment.explore_of_skips hpath hskip, around_apply hready hskip']
      apply Ends.of_work
      apply hvisit (FlowGraph.mem_nodes_of_target? hm) reached m _ _ (hready.around hskip') htrail
        (hshort.trans (hready.shortcut_around hskip'))
      apply hsettled.cons fun _ => hskip
  | none =>
      have hmem : .next ∈ g.exits n := by
        rw [hexits]
        apply List.mem_singleton_self
      rw [target_bind_of_unset hshort hmem hm, Assignment.failure_explore_of_not_mem hpath, hexits,
        List.map_singleton, exploreExit, FlowGraph.target_of_unset hmem hm]
      apply Ends.error

/-- Entering a node fails as what is computed inside does. -/
theorem ends_node
    {e : Option Failure} {refused inside : Run Unit} (htrail : s.trail.nodes = path)
    (hpath : n ∉ path)
    (h : Ends { s with trail := ⟨n :: path⟩ } e (inside { s with trail := ⟨n :: path⟩ })) :
  Ends s e (Walk.node n refused inside s)
  := by
  have hentered : Trail.enter? n s.trail = some ⟨n :: path⟩ := by
    rw [Path.enter?_eq, htrail, if_neg hpath]
  rw [node_of_entered hentered]
  generalize inside { s with trail := ⟨n :: path⟩ } = result at h
  cases h with
  | ok work =>
      dsimp only
      rw [Path.leave_of_enter? hentered]
      apply Ends.ok
  | error e t => apply Ends.error

/-- A step fails just as the check does at the node, if the visits behind it do. -/
theorem visitorEnds_step
    (hvisit : ∀ n, n ∉ path → n ∈ g.nodes → VisitorEnds g (n :: path) visit)
    (hshortens : VisitorShortens visit) :
  VisitorEnds g path (step visit)
  := by
  intro reached n s scopes hready htrail hshort hsettled
  by_cases hmem : n ∈ path
  · have hrefused : Trail.enter? n s.trail = none := by
      rw [Path.enter?_eq, htrail, if_pos hmem]
    rw [step, node_of_refused hrefused, Assignment.explore_of_mem hmem]
    apply Ends.ok
  · apply ends_node htrail hmem
    change Ends _ _ ((if (s.work.graph.content n).isEmptyBlock then _ else _ : Run Unit) _)
    by_cases hempty : (g.content n).isEmptyBlock
    · rw [if_pos ((hshort.isEmptyBlock_iff n).mpr hempty)]
      apply ends_around (s := { s with trail := ⟨n :: path⟩ }) (hvisit n hmem) hmem hempty hsettled
        ⟨hready.1, hready.2⟩ rfl hshort
    · rw [if_neg (mt (hshort.isEmptyBlock_iff n).mp hempty),
        Assignment.failure_explore_of_not_mem hmem]
      apply ends_followAll (s := { s with trail := ⟨n :: path⟩ }) (hvisit n hmem) hshortens hempty
        (fun m => hsettled.cons fun h => absurd h hempty) rfl hshort

/-- Visits nested deeper than there are nodes off the path fail just as the check does. -/
theorem visitorEnds_nest
    {depth : Nat} (h : g.unvisited path < depth) :
  VisitorEnds g path (Walk.nest step depth)
  := by
  induction depth generalizing path with
  | zero => exact absurd h (Nat.not_lt_zero _)
  | succ depth ih =>
      apply visitorEnds_step _ (visitorShortens_nest depth)
      intro n hpath hmem
      have hlt := FlowGraph.unvisited_cons_lt hmem hpath
      apply ih
      omega

/-- The walk fails as the report of the graph does. -/
theorem ends_walk
    (g : FlowGraph) :
  Ends ⟨Trail.empty, ⟨g, []⟩⟩ (Assignment.report g).failure (walk g ⟨Trail.empty, ⟨g, []⟩⟩)
  := by
  have hvisit := visitorEnds_nest (g.unvisited_lt_nesting [.start])
  have htrail : (Trail.empty : Path).nodes = [] := rfl
  rw [Assignment.report, Assignment.failure_explore_of_not_mem List.not_mem_nil]
  apply ends_node htrail List.not_mem_nil
  apply ends_followAll (fun _ => hvisit) (visitorShortens_nest _) g.not_isEmptyBlock_start
    g.settled_start rfl (FlowGraph.Shortcut.refl g)

end Bypass

/-- Bypassing the empty blocks of a graph comes to its end if the survey of the graph does.
Otherwise it fails at the slot at which the survey stops. -/
theorem FlowGraph.bypass_of_depthFirst
    (g : FlowGraph) :
  match g.depthFirst with
  | .ok _ => ∃ blocks, g.bypass.blocks = .ok blocks
  | .error s => g.bypass.blocks = .error (.unsetSlot (g.kind s.node) s.exit)
  := by
  have hends := Bypass.ends_walk g
  rw [Assignment.failure_report] at hends
  unfold bypass
  generalize g.depthFirst = surveyed, Bypass.walk g ⟨Trail.empty, ⟨g, []⟩⟩ = result at hends
  cases surveyed with
  | ok visited =>
      cases hends with
      | ok work => exact ⟨_, rfl⟩
  | error s =>
      cases hends with
      | error e t => rfl

end MethodFlow
