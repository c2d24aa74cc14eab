import MethodFlow.Proofs.Drawing.Lines
import MethodFlow.Proofs.Graph.Survey

/-!
# Which graphs have a drawing

The walk which draws enters the nodes just as the survey of the graph does, so it comes to its end
or fails together with the survey, and a failure is that of the same slot (`drawing_of_depthFirst`).
-/

namespace MethodFlow

namespace Drawing

variable {g : FlowGraph} {V V₁ : List Node} {i : Nat} {n m : Node} {p : Exit} {ps : List Exit}
  {ls : List Line} {visit : Node → Draw Nat} {α β : Type}

/-- A computation ends with the nodes entered which a survey visited, or fails at the slot at which
the survey stopped. -/
inductive Agrees (g : FlowGraph) :
    Except Slot (List Node) → EStateM.Result Failure (Progress Visited (Array Line)) α → Prop where
  | ok (V : List Node) (a : α) (ls : List Line) : Agrees g (.ok V) (.ok a (progress V ls))
  | unset (s : Slot) (t : Progress Visited (Array Line)) :
      Agrees g (.error s) (.error (.unsetSlot (g.kind s.node) s.exit) t)

/-- Computations which agree with surveys agree with them one after the other. -/
theorem Agrees.bind
    {surveyed : Except Slot (List Node)} {survey : List Node → Except Slot (List Node)}
    {x : Draw α} {f : α → Draw β} {t : Progress Visited (Array Line)}
    (h : Agrees g surveyed (x t))
    (hf : ∀ V a ls, surveyed = .ok V → Agrees g (survey V) (f a (progress V ls))) :
  Agrees g (surveyed >>= survey) ((x >>= f) t)
  := by
  rw [Walk.bind_apply]
  generalize x t = result at h
  cases h with
  | ok V a ls => apply hf V a ls rfl
  | unset s t => apply Agrees.unset

/-- The visitor agrees with the survey wherever an exit of `n` leads, once the nodes `V` were
entered. -/
def VisitorAgrees (g : FlowGraph) (n : Node) (V : List Node) (visit : Node → Draw Nat) : Prop :=
  ∀ ⦃p m V₁⦄ (ls : List Line), (g.content n).target? p = some m → V <+: V₁ →
    Agrees g (g.enter V₁ m) (visit m (progress V₁ ls))

/-- Following a slot which is set agrees with entering its target. -/
theorem agrees_follow
    (hp : (g.content n).target? p = some m)
    (h : Agrees g (g.enter V m) (visit m (progress V ls))) :
  Agrees g (g.enter V m) (follow g visit i ⟨n, p⟩ (progress V ls))
  := by
  have htarget : g.target ⟨n, p⟩ = .ok m := FlowGraph.target_eq_ok_iff.mpr hp
  rw [follow, Walk.bind_apply, Walk.target_apply, htarget]
  dsimp only
  rw [Walk.bind_apply]
  generalize g.enter V m = surveyed, visit m (progress V ls) = result at h
  cases h with
  | ok V₁ j ls₁ =>
      dsimp only
      rw [draw, Walk.work_apply, List.push_toArray]
      apply Agrees.ok
  | unset s t => apply Agrees.unset

/-- Following exits of a node agrees with surveying its slots. -/
theorem agrees_forM_follow
    (hvisit : VisitorAgrees g n V visit) (hV : V <+: V₁) (hps : ps ⊆ g.exits n) :
  Agrees g (g.survey V₁ (ps.map (⟨n, ·⟩)))
    ((forM ps fun p => follow g visit i ⟨n, p⟩ : Draw Unit) (progress V₁ ls))
  := by
  induction ps generalizing V₁ ls with
  | nil =>
      rw [List.map_nil, FlowGraph.survey_nil]
      apply Agrees.ok
  | cons p ps ih =>
      obtain ⟨hp, hps⟩ := List.cons_subset.mp hps
      rw [List.map_cons, List.forM_cons]
      cases htarget : (g.content n).target? p with
      | some m =>
          rw [FlowGraph.survey_of_set htarget]
          apply Agrees.bind (agrees_follow htarget (hvisit ls htarget hV))
          intro V₂ _ ls₂ hV₂
          apply ih (hV.trans (FlowGraph.isPrefix_of_enter hV₂)) hps
      | none =>
          rw [FlowGraph.survey_of_unset htarget, Walk.bind_apply, follow, Walk.bind_apply,
            Walk.target_apply, FlowGraph.target_of_unset hp htarget]
          apply Agrees.unset ⟨n, p⟩

/-- Entering a new node agrees with a survey if what is computed inside agrees. -/
theorem agrees_node
    {surveyed : Except Slot (List Node)} {refused inside : Draw α} (hm : m ∉ V)
    (h : Agrees g surveyed (inside (progress (V ++ [m]) ls))) :
  Agrees g surveyed (Walk.node m refused inside (progress V ls))
  := by
  rw [Walk.node_of_entered (by rw [Visited.enter?_eq, if_neg hm])]
  dsimp only
  generalize inside (progress (V ++ [m]) ls) = result at h ⊢
  cases h with
  | ok V₁ a ls₁ => apply Agrees.ok
  | unset s t => apply Agrees.unset

/-- A step at a new node agrees with entering it if the visits behind the node agree. -/
theorem agrees_step
    (hm : m ∉ V) (hvisit : VisitorAgrees g m (V ++ [m]) visit) :
  Agrees g (g.enter V m) (step g visit m (progress V ls))
  := by
  rw [FlowGraph.enter_of_not_mem hm, step]
  apply agrees_node hm
  rw [Walk.bind_apply, numberOf]
  change Agrees g _ ((draw _ >>= _) (progress (V ++ [m]) ls))
  rw [Walk.bind_apply, draw, Walk.work_apply, List.push_toArray,
    ← bind_pure (g.survey (V ++ [m]) (g.slots m))]
  apply Agrees.bind (agrees_forM_follow hvisit List.prefix_rfl (List.Subset.refl _))
  intro V₁ _ ls₁ _
  apply Agrees.ok

/-- A visit nested deeper than there are nodes left agrees with entering the node. -/
theorem agrees_nest
    {depth : Nat} (hdepth : g.unvisited V < depth) :
  Agrees g (g.enter V m) (Walk.nest (step g) depth m (progress V ls))
  := by
  induction depth generalizing V m ls with
  | zero => exact absurd hdepth (Nat.not_lt_zero _)
  | succ depth ih =>
      rw [Walk.nest_succ]
      by_cases hm : m ∈ V
      · rw [FlowGraph.enter_of_mem hm, step,
          Walk.node_of_refused (by rw [Visited.enter?_eq, if_pos hm])]
        apply Agrees.ok
      · apply agrees_step hm
        intro p k V₁ ls₁ hp hV
        apply ih
        have hlt := FlowGraph.unvisited_concat_lt (FlowGraph.mem_nodes_of_target? hp) hm
        have hle := FlowGraph.unvisited_le_of_subset (g := g) hV.subset
        omega

end Drawing

/-- A graph has a drawing if its survey comes to its end.  Otherwise drawing it fails at the slot at
which the survey stops. -/
theorem FlowGraph.drawing_of_depthFirst
    (g : FlowGraph) :
  match g.depthFirst with
  | .ok _ => ∃ lines, g.drawing = .ok lines
  | .error s => g.drawing = .error (.unsetSlot (g.kind s.node) s.exit)
  := by
  have hvisit : Drawing.Agrees g g.depthFirst
      (Walk.nest (Drawing.step g) g.nesting .start ⟨Trail.empty, #[]⟩) :=
    Drawing.agrees_nest (g.unvisited_lt_nesting [])
  unfold drawing
  generalize g.depthFirst = surveyed, Walk.nest (Drawing.step g) g.nesting .start
    ⟨Trail.empty, #[]⟩ = result at hvisit
  cases hvisit with
  | ok V j ls => exact ⟨_, rfl⟩
  | unset s t => rfl

end MethodFlow
