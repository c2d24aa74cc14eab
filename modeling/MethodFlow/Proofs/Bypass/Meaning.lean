import MethodFlow.Bypass
import MethodFlow.Proofs.Graph.Shortcut
import MethodFlow.Proofs.Graph.Unvisited
import MethodFlow.Proofs.Walk.Keeping

/-!
# Bypassing empty blocks keeps the runs

Whenever the walk of `FlowGraph.bypass` visits a node, the slot through which it came still leads to
that node and does not belong to an empty block (`Bypass.Ready`).  So each redirection leads a slot
past one empty block, and the graph at the end of the walk, or at its failure, is a shortcut of the
graph before (`shortcut_bypass`).  The runs from the start and the nodes which can be reached are
therefore the same, empty blocks apart (`bypass_preserves_runs`).
-/

namespace MethodFlow

namespace Bypass

open Walk

/-- The slot `reached` leads to `n` in the graph as changed so far, and is not that of an empty
block. -/
structure Ready (s : Progress Path Work) (reached : Slot) (n : Node) : Prop where
  target? : (s.work.graph.content reached.node).target? reached.exit = some n
  not_isEmptyBlock : ¬ (s.work.graph.content reached.node).isEmptyBlock

/-- The computation makes shortcuts only when it starts in a state with the property `P`. -/
def Shortens {α : Type} (P : Progress Path Work → Prop) (act : Run α) : Prop :=
  ∀ s, P s → s.work.graph.Shortcut (final (act s)).work.graph

/-- The visitor makes shortcuts only when it visits a node through a slot which leads there. -/
def VisitorShortens (visit : Slot × Node → Run Unit) : Prop :=
  ∀ reached n, Shortens (fun s => Ready s reached n) (visit (reached, n))

theorem final_target_bind
    {α : Type} (slot : Slot) (f : Node → Run α) (s : Progress Path Work) :
  final ((target slot >>= f) s)
    = match s.work.graph.target slot with
      | .ok m => final (f m s)
      | .error _ => s
  := by
  have htarget : target slot s = Walk.target s.work.graph slot s := rfl
  rw [final_bind, htarget, target_apply]
  cases s.work.graph.target slot <;> rfl

theorem target_bind_apply
    {α : Type} {slot : Slot} {m : Node} {s : Progress Path Work}
    (h : (s.work.graph.content slot.node).target? slot.exit = some m) (f : Node → Run α) :
  (target slot >>= f) s = f m s
  := by
  have hok : s.work.graph.target slot = .ok m := FlowGraph.target_eq_ok_iff.mpr h
  have htarget : target slot s = Walk.target s.work.graph slot s := rfl
  rw [bind_apply, htarget, target_apply, hok]

/-- Reading a slot and going on succeeds where one goes on from the target of the slot. -/
theorem exists_of_target_bind_eq_ok
    {α : Type} {slot : Slot} {f : Node → Run α} {s s' : Progress Path Work} {a : α}
    (h : (target slot >>= f) s = .ok a s') :
  ∃ m, (s.work.graph.content slot.node).target? slot.exit = some m ∧ f m s = .ok a s'
  := by
  have htarget : target slot s = Walk.target s.work.graph slot s := rfl
  obtain ⟨m, t, hm, hf⟩ := bind_eq_ok_iff.mp h
  rw [htarget, target_apply] at hm
  cases hset : s.work.graph.target slot with
  | error e =>
      rw [hset] at hm
      contradiction
  | ok k =>
      rw [hset] at hm
      cases hm
      exact ⟨m, FlowGraph.target_eq_ok_iff.mp hset, hf⟩

/-- A slot of a node leads to a node after its redirection. -/
theorem redirect_apply
    {s : Progress Path Work} {slot : Slot} {m : Node}
    (h : slot.exit ∈ s.work.graph.exits slot.node) :
  redirect slot m s
    = .ok () { s with work := { s.work with graph := s.work.graph.redirect slot m } }
  := by
  have hset : s.work.graph.setTarget slot m = .ok (s.work.graph.redirect slot m) :=
    FlowGraph.setTarget_eq_ok_iff.mpr ⟨h, rfl⟩
  change (MonadExcept.ofExcept (s.work.graph.setTarget slot m) >>= _ : Run Unit) s = _
  rw [hset]
  rfl

/-- Following an exit of a node which is no empty block makes shortcuts only. -/
theorem shortens_follow
    {visit : Slot × Node → Run Unit} (hvisit : VisitorShortens visit) (n : Node) (p : Exit) :
  Shortens (fun s => ¬ (s.work.graph.content n).isEmptyBlock)
    (do visit (⟨n, p⟩, ← target ⟨n, p⟩))
  := by
  intro s hn
  rw [final_target_bind]
  cases htarget : s.work.graph.target ⟨n, p⟩ with
  | ok m => apply hvisit _ _ _ ⟨FlowGraph.target_eq_ok_iff.mp htarget, hn⟩
  | error e => apply FlowGraph.Shortcut.refl

/-- Following exits of a node which is no empty block makes shortcuts only. -/
theorem shortens_forM_follow
    {visit : Slot × Node → Run Unit} (hvisit : VisitorShortens visit) (n : Node)
    (exits : List Exit) :
  Shortens (fun s => ¬ (s.work.graph.content n).isEmptyBlock)
    (forM exits fun p => do visit (⟨n, p⟩, ← target ⟨n, p⟩))
  := by
  intro s hn
  induction exits generalizing s with
  | nil => apply FlowGraph.Shortcut.refl
  | cons p exits ih =>
      rw [List.forM_cons, final_bind]
      have hfirst := shortens_follow hvisit n p s hn
      generalize (do visit (⟨n, p⟩, ← target ⟨n, p⟩) : Run Unit) s = result at hfirst
      cases result with
      | ok _ s' =>
          apply hfirst.trans
          apply ih
          rwa [hfirst.isEmptyBlock_iff]
      | error _ s' => apply hfirst

theorem shortens_followAll
    {visit : Slot × Node → Run Unit} (hvisit : VisitorShortens visit) (n : Node) :
  Shortens (fun s => ¬ (s.work.graph.content n).isEmptyBlock) (followAll visit n)
  := fun s hn => shortens_forM_follow hvisit n (s.work.graph.exits n) s hn

/-- The state once the slot `reached` was led from the empty block `n` on to `m`. -/
def around (s : Progress Path Work) (reached : Slot) (n m : Node) : Progress Path Work :=
  ⟨s.trail, ⟨s.work.graph.redirect reached m, s.work.blocks.insert n⟩⟩

/-- Leading the slot past an empty block is a shortcut. -/
theorem Ready.shortcut_around
    {s : Progress Path Work} {reached : Slot} {n m : Node} (h : Ready s reached n)
    (hskip : s.work.graph.Skips n m) :
  s.work.graph.Shortcut (around s reached n m).work.graph
  := by
  apply FlowGraph.Shortcut.redirect h.not_isEmptyBlock h.target? hskip

/-- The slot led past an empty block leads to the next node. -/
theorem Ready.around
    {s : Progress Path Work} {reached : Slot} {n m : Node} (h : Ready s reached n)
    (hskip : s.work.graph.Skips n m) :
  Ready (around s reached n m) reached m
  := by
  have hmem := FlowGraph.mem_exits_of_target? h.target?
  constructor
  · change ((s.work.graph.redirect reached m).content reached.node).target? reached.exit = _
    rw [FlowGraph.content_redirect, if_pos rfl, Content.target?_redirect, if_pos ⟨rfl, hmem⟩]
  · rw [(h.shortcut_around hskip).isEmptyBlock_iff]
    apply h.not_isEmptyBlock

/-- Going around an empty block is visiting the next node once the slot was led there. -/
theorem around_apply
    {visit : Slot × Node → Run Unit} {s : Progress Path Work} {reached : Slot} {n m : Node}
    (h : Ready s reached n) (hskip : s.work.graph.Skips n m) :
  (do
    let m ← target ⟨n, .next⟩
    redirect reached m
    count n
    visit (reached, m) : Run Unit) s = visit (reached, m) (around s reached n m)
  := by
  have hmem := FlowGraph.mem_exits_of_target? h.target?
  rw [target_bind_apply hskip.2, bind_apply, redirect_apply hmem]
  rfl

/-- Going around an empty block makes shortcuts only. -/
theorem shortens_around
    {visit : Slot × Node → Run Unit} (hvisit : VisitorShortens visit) (reached : Slot) (n : Node) :
  Shortens (fun s => Ready s reached n ∧ (s.work.graph.content n).isEmptyBlock)
    (do
      let m ← target ⟨n, .next⟩
      redirect reached m
      count n
      visit (reached, m))
  := by
  rintro s ⟨hready, hempty⟩
  cases htarget : s.work.graph.target ⟨n, .next⟩ with
  | error e =>
      rw [final_target_bind, htarget]
      apply FlowGraph.Shortcut.refl
  | ok m =>
      have hskip : s.work.graph.Skips n m := ⟨hempty, FlowGraph.target_eq_ok_iff.mp htarget⟩
      rw [around_apply hready hskip]
      apply (hready.shortcut_around hskip).trans
      apply hvisit reached m _ (hready.around hskip)

/-- Entering a node keeps the graph, so what is computed inside decides whether shortcuts are
made. -/
theorem shortens_node
    {P : Progress Path Work → Prop} {n : Node} {inside : Run Unit}
    (h : ∀ s trail, P s → s.work.graph.Shortcut (final (inside { s with trail })).work.graph) :
  Shortens P (Walk.node n (pure ()) inside)
  := by
  intro s hs
  cases htrail : Trail.enter? n s.trail with
  | none =>
      rw [node_of_refused htrail]
      apply FlowGraph.Shortcut.refl
  | some trail =>
      rw [node_of_entered htrail]
      have hinside := h s trail hs
      generalize inside { s with trail } = result at hinside ⊢
      cases result <;> exact hinside

/-- One step makes shortcuts only when the visits behind it do. -/
theorem visitorShortens_step
    {visit : Slot × Node → Run Unit} (hvisit : VisitorShortens visit) :
  VisitorShortens (step visit)
  := by
  intro reached n
  apply shortens_node
  intro s trail hready
  change s.work.graph.Shortcut (final ((if (s.work.graph.content n).isEmptyBlock then _ else _ :
    Run Unit) { s with trail })).work.graph
  split
  case isTrue hempty =>
    apply shortens_around hvisit reached n { s with trail } ⟨⟨hready.1, hready.2⟩, hempty⟩
  case isFalse hempty => exact shortens_followAll hvisit n { s with trail } hempty

/-- Visits nested to any depth make shortcuts only. -/
theorem visitorShortens_nest
    (depth : Nat) :
  VisitorShortens (Walk.nest step depth)
  := by
  induction depth with
  | zero =>
      intro reached n s _
      apply FlowGraph.Shortcut.refl
  | succ depth ih => apply visitorShortens_step ih

end Bypass

namespace FlowGraph

/-- Whether it comes to its end or fails, bypassing the empty blocks of a graph makes a shortcut. -/
theorem shortcut_bypass
    (g : FlowGraph) :
  g.Shortcut g.bypass.graph
  := by
  have hwalk : Bypass.Shortens (fun s => ¬ (s.work.graph.content .start).isEmptyBlock)
      (Bypass.walk g) := by
    apply Bypass.shortens_node
    intro s trail hstart
    apply Bypass.shortens_followAll (Bypass.visitorShortens_nest _) .start { s with trail } hstart
  have hshort := hwalk ⟨Trail.empty, ⟨g, []⟩⟩ g.not_isEmptyBlock_start
  unfold bypass
  generalize Bypass.walk g ⟨Trail.empty, ⟨g, []⟩⟩ = result at hshort
  cases result <;> exact hshort

/-- Whether it comes to its end or fails, bypassing the empty blocks of a graph leads slots past
empty blocks and changes nothing else.  The runs from the start, whatever the outcomes of conditions
are, and the nodes which can be reached stay the same, empty blocks apart. -/
theorem bypass_preserves_runs
    (g : FlowGraph) :
  g.Shortcut g.bypass.graph
    ∧ (∀ os es m, ¬ (g.content m).isEmptyBlock →
        (g.bypass.graph.Run .start os es m ↔ g.Run .start os es m))
    ∧ (∀ os es, (∃ m, g.bypass.graph.Run .start os es m) ↔ ∃ m, g.Run .start os es m)
    ∧ ∀ m, ¬ (g.content m).isEmptyBlock →
        (g.bypass.graph.Reaches .start m ↔ g.Reaches .start m)
  := by
  have hshort := g.shortcut_bypass
  constructor
  · apply hshort
  · constructor
    · intro os es m hm
      apply hshort.run_iff hm
    · constructor
      · intro os es
        apply hshort.exists_run_iff
      · intro m hm
        apply hshort.reaches_iff hm

end FlowGraph

end MethodFlow
