import MethodFlow.Bypass.Stack
import MethodFlow.Proofs.Bypass.Nesting
import MethodFlow.Proofs.Bypass.Survey
import MethodFlow.Proofs.Walk.Marks

/-!
# The stack of slots

The walk which keeps the slots it follows on a stack mirrors the walk which hands each slot to the
visit: whenever a node is visited, the slot through which it was reached is on top of the stack
(`Bypass.StacksSlots`).  So both walks change the graph alike, bypass the same blocks and fail for
the same reasons (`FlowGraph.bypassOn_of_translates`), and an empty block is never reached without a
slot on the stack (`FlowGraph.bypassOn_ne_noIncomingSlot`).
-/

namespace MethodFlow

namespace Bypass

open Walk

variable {τ : Type} {f : Path → τ} {p : Path} {slots : List Slot}
  {visit : Slot × Node → Run Unit} {visit' : Node → Walk τ Stacked Unit}

/-- The work is the same, and these slots are on the stack. -/
structure Stacks (slots : List Slot) (w : Work) (w' : Stacked) : Prop where
  toWork : w'.toWork = w
  incoming : w'.incoming = slots

theorem Stacks.push
    {w : Work} {w' : Stacked} (h : Stacks slots w w') (s : Slot) :
  Stacks (s :: slots) w (w'.push s)
  := ⟨h.toWork, congrArg (s :: ·) h.incoming⟩

theorem Stacks.pop
    {w : Work} {w' : Stacked} {s : Slot} (h : Stacks (s :: slots) w w') :
  Stacks slots w w'.pop
  := ⟨h.toWork, congrArg List.tail h.incoming⟩

/-- The work is the same, whatever is on the stack. -/
structure Carries (w : Work) (w' : Stacked) : Prop where
  toWork : w'.toWork = w

/-- On a path and on its translation, with these slots on the stack, the computations come to the
same and have the same slots on the stack in the end. -/
abbrev MirrorsStacked {α : Type} (f : Path → τ) (p : Path) (slots : List Slot) (x : Run α)
    (y : Walk τ Stacked α) : Prop :=
  Mirrors (Along f p (Stacks slots)) (Along f p (Stacks slots)) (Along f p Carries) x y

/-- Visits come to the same if the slot through which the node is reached is on top of the stack. -/
def StacksSlots (f : Path → τ) (visit : Slot × Node → Run Unit)
    (visit' : Node → Walk τ Stacked Unit) : Prop :=
  ∀ p slots s n, MirrorsStacked f p (s :: slots) (visit (s, n)) (visit' n)

theorem carries_of_stacks
    {s : Progress Path Work} {t : Progress τ Stacked} (h : Along f p (Stacks slots) s t) :
  Along f p Carries s t
  := ⟨h.trail_left, h.trail_right, ⟨h.work.toWork⟩⟩

/-- Computations which begin by reading the graph come to the same if they do for each graph. -/
theorem mirrors_current_bind
    {α : Type} {k : FlowGraph → Run α} {k' : FlowGraph → Walk τ Stacked α}
    (hk : ∀ g, MirrorsStacked f p slots (k g) (k' g)) :
  MirrorsStacked f p slots (current >>= k) (Stacked.current >>= k')
  := by
  intro s t h
  have hgraph : t.work.graph = s.work.graph := congrArg Work.graph h.work.toWork
  change Alike _ _ (k s.work.graph s) (k' t.work.graph t)
  rw [hgraph]
  apply hk _ s t h

theorem mirrors_ofExcept_stacks
    {α : Type} (x : Except Failure α) :
  MirrorsStacked f p slots (MonadExcept.ofExcept x) (MonadExcept.ofExcept x)
  := mirrors_ofExcept (fun _ _ => carries_of_stacks) x

theorem mirrors_target
    (s : Slot) :
  MirrorsStacked f p slots (target s) (Stacked.target s)
  := mirrors_current_bind fun _ => mirrors_ofExcept_stacks _

theorem mirrors_redirect
    (s : Slot) (m : Node) :
  MirrorsStacked f p slots (redirect s m) (Stacked.redirect s m)
  := by
  apply mirrors_current_bind
  intro g
  apply (mirrors_ofExcept_stacks _).bind
  intro changed
  apply mirrors_work_along
  rintro w w' ⟨rfl, rfl⟩
  exact ⟨rfl, rfl⟩

theorem mirrors_count
    (n : Node) :
  MirrorsStacked f p slots (count n) (Stacked.count n)
  := by
  apply mirrors_work_along
  rintro w w' ⟨rfl, rfl⟩
  exact ⟨rfl, rfl⟩

/-- Following a slot comes to the same if visits do with the slot on top of the stack. -/
theorem mirrors_follow
    (hvisit : StacksSlots f visit visit') (s : Slot) :
  MirrorsStacked f p slots (do visit (s, ← target s)) (Stacked.follow visit' s)
  := by
  apply (mirrors_target s).bind
  intro m r t h
  have hpushed : Along f p (Stacks (s :: slots)) r { t with work := t.work.push s } :=
    ⟨h.trail_left, h.trail_right, h.work.push s⟩
  have hends := hvisit p slots s m r _ hpushed
  change Alike _ _ (visit (s, m) r) ((visit' m >>= fun _ => Walk.work Stacked.pop) _)
  rw [bind_apply]
  generalize visit (s, m) r = result, visit' m _ = result' at hends
  cases hends with
  | ok h => exact .ok ⟨h.trail_left, h.trail_right, h.work.pop⟩
  | error h => exact .error h

theorem mirrors_reached_bind
    {α : Type} {s : Slot} {x : Run α} {k : Slot → Walk τ Stacked α}
    (h : MirrorsStacked f p (s :: slots) x (k s)) :
  MirrorsStacked f p (s :: slots) x (Stacked.reached >>= k)
  := by
  intro r t hr
  rw [bind_apply, Stacked.reached_apply, hr.work.incoming]
  apply h r t hr

/-- Following the exits of a node comes to the same if visits do with the slots on top of the
stack. -/
theorem mirrors_followAll
    (hvisit : StacksSlots f visit visit') (n : Node) :
  MirrorsStacked f p slots (followAll visit n) (Stacked.followAll visit' n)
  := by
  apply mirrors_current_bind
  intro g
  apply mirrors_forM
  intro e _
  apply mirrors_follow hvisit

variable [Trail τ]

/-- Steps come to the same if the visits behind them do. -/
theorem stacksSlots_step
    (hf : Trail.Translates f) (hvisit : StacksSlots f visit visit') :
  StacksSlots f (step visit) (Stacked.step visit')
  := by
  intro p slots s n
  apply mirrors_node hf n (mirrors_pure ())
  intro q
  apply mirrors_current_bind
  intro g
  split
  case isTrue =>
    apply mirrors_reached_bind
    apply (mirrors_target _).bind
    intro m
    apply (mirrors_redirect s m).bind
    intro _
    apply (mirrors_count n).bind
    intro _
    apply hvisit q slots s m
  case isFalse => apply mirrors_followAll hvisit n

/-- Whenever a node is visited, the slot through which it was reached is on top of the stack. -/
theorem stacksSlots_nest
    (hf : Trail.Translates f) (depth : Nat) :
  StacksSlots f (nest step depth) (nest Stacked.step depth)
  := by
  apply nest_related
  · intro p slots s n
    apply mirrors_pure
  · intro visit visit'
    apply stacksSlots_step hf

/-- The start, to which no slot leads, is visited with an empty stack, and follows its slot. -/
theorem mirrors_step_start
    (hf : Trail.Translates f) (hvisit : StacksSlots f visit visit') :
  MirrorsStacked f p [] (Walk.node .start (pure ()) (followAll visit .start))
    (Stacked.step visit' .start)
  := by
  apply mirrors_node hf .start (mirrors_pure ())
  intro q
  change MirrorsStacked f q [] (current >>= fun _ => followAll visit .start) _
  apply mirrors_current_bind
  intro g
  rw [if_neg g.not_isEmptyBlock_start]
  apply mirrors_followAll hvisit

/-- Both walks of a graph come to the same, and in the end no slot is left on the stack. -/
theorem alike_walk
    (hf : Trail.Translates f) (g : FlowGraph) :
  Alike (Along f Trail.empty (Stacks [])) (Along f Trail.empty Carries)
    (walk g ⟨Trail.empty, ⟨g, []⟩⟩)
    (nest Stacked.step g.nesting .start ⟨Trail.empty, .initial g⟩)
  := by
  rw [← walk_eq_of_size_le (Nat.le_refl g.size), FlowGraph.nesting, nest_succ]
  apply mirrors_step_start hf (stacksSlots_nest hf g.size)
  exact ⟨rfl, hf.empty.symm, rfl, rfl⟩

/-- An empty block which is visited without a slot on the stack makes the walk fail. -/
theorem Stacked.step_of_isEmptyBlock
    {n : Node} {s : Progress τ Stacked} {trail : τ} (htrail : Trail.enter? n s.trail = some trail)
    (hempty : (s.work.graph.content n).isEmptyBlock) (hslots : s.work.incoming = []) :
  Stacked.step visit' n s = .error .noIncomingSlot { s with trail := Trail.leave n trail }
  := by
  have hcurrent : current { s with trail } = .ok s.work.graph { s with trail } := rfl
  rw [step, node_of_entered htrail, bind_apply, hcurrent]
  dsimp only
  rw [if_pos hempty, bind_apply, reached_apply, hslots]

end Bypass

namespace FlowGraph

/-- On trails into which paths translate, the walk with the stack comes to the same. -/
theorem bypassOn_of_translates
    {τ : Type} [Trail τ] {f : Path → τ} (hf : Trail.Translates f) (g : FlowGraph) :
  g.bypassOn τ = g.bypass
  := by
  have hends := Bypass.alike_walk hf g
  unfold bypassOn bypass
  generalize Bypass.walk g ⟨Trail.empty, ⟨g, []⟩⟩ = result,
    Walk.nest Bypass.Stacked.step g.nesting .start
      (⟨Trail.empty, .initial g⟩ : Progress τ Bypass.Stacked) = result' at hends
  cases hends with
  | ok h => simp only [← h.work.toWork]
  | error h => simp only [← h.work.toWork]

/-- With the stack and with marks, the empty blocks are bypassed in the same way. -/
theorem bypassOn_markedPath
    (g : FlowGraph) :
  g.bypassOn MarkedPath = g.bypass
  := g.bypassOn_of_translates Path.translates_marked

/-- No empty block is reached without a slot on the stack. -/
theorem bypassOn_ne_noIncomingSlot
    (g : FlowGraph) :
  (g.bypassOn MarkedPath).blocks ≠ .error .noIncomingSlot
  := by
  rw [bypassOn_markedPath]
  have hsurvey := g.bypass_of_depthFirst
  cases hvisited : g.depthFirst with
  | ok visited =>
      rw [hvisited] at hsurvey
      obtain ⟨blocks, hblocks⟩ := hsurvey
      simp [hblocks]
  | error s =>
      rw [hvisited] at hsurvey
      simp [hsurvey]

/-- Each node which the walk leaves is on top of the stack of nodes. -/
theorem holds_bypassOn
    (g : FlowGraph) :
  (Walk.final (Walk.nest Bypass.Stacked.step g.nesting .start
    (⟨Trail.empty, .initial g⟩ : Progress AssertedPath Bypass.Stacked))).trail.holds = true
  := by
  rw [(Bypass.alike_walk Path.translates_asserted g).trail_final]
  rfl

end FlowGraph

end MethodFlow
