import MethodFlow.Job
import MethodFlow.Proofs.Assembly.Meaning
import MethodFlow.Proofs.Execution.Linear

/-!
# The flow graph of a method executes as the method does

Lowering, assembling and completing put together: `Method.flowGraph_preserves_execution` says that
every method has a flow graph, that the job which builds it leaves it in the workspace, and that its
executions are those of the method.
-/

namespace MethodFlow

open LinearCode Assembly

namespace Method

variable {m : Method} {a : Assembly} {g : FlowGraph}

/-- The assembly of a method succeeds, and every label for which a slot still waits is placed at the
cursor. -/
theorem exists_assembly
    (m : Method) :
  ∃ a, m.assembly = .ok a ∧ a.Sound ∧ ∀ l s, (l, s) ∈ a.deferred → l ∈ a.cursor.placed
  := by
  obtain ⟨a, ha, hsound, hevolves⟩ := (sound_initial m.parameters).emitAll m.code
  use a, ha, hsound
  intro l s hs
  obtain hs' | hl := hevolves.deferred l s hs
  · contradiction
  · have hhome := hevolves.housed [] l (m.targets_subset hl)
    rw [ne_eq, home_eq_none_iff, not_and_or, not_not] at hhome
    apply hhome.resolve_right
    intro hnode
    apply hnode (hsound.unbound l s hs)

/-- The construction of the flow graph of a method is completed. -/
theorem exists_complete
    (m : Method) :
  ∃ a g, m.assembly = .ok a ∧ a.complete = .ok g ∧ m.flowGraph = .ok g ∧ a.Finished g
  := by
  obtain ⟨a, ha, hsound, hdeferred⟩ := m.exists_assembly
  obtain ⟨g, hcomplete, hg⟩ := hsound.complete hdeferred
  use a, g, ha, hcomplete
  refine ⟨?_, hg⟩
  rw [flowGraph, ha]
  apply hcomplete

/-- The finished graph goes on from the start as the code of the method runs. -/
theorem continues_of_executes_code
    {os : List Bool} {es : List Observation} {e : Ending} (ha : m.assembly = .ok a)
    (hg : a.Finished g) (h : LinearCode.Executes [] m.code os es e) :
  g.Continues .start os es e
  := by
  have hcode : (initial m.parameters).emitAll m.code = .ok a := ha
  obtain ⟨n, hnext, hobservations, -, hstands⟩ := exists_first hcode hg
  have hstep := FlowGraph.Continues.step hnext (hstands.continues hcode hg rfl h)
  rw [hobservations] at hstep
  apply hstep

end Method

namespace Job

variable {α : Type}

/-- Logging several events, one after the other, only adds them to the log. -/
theorem forM_log
    (f : α → Event) (xs : List α) (w : Workspace) :
  (xs.forM fun x => log (f x)) w = .ok () { w with log := w.log ++ xs.map f }
  := by
  induction xs generalizing w with
  | nil =>
      rw [List.map_nil, List.append_nil]
      rfl
  | cons x xs ih =>
      change (xs.forM fun x => log (f x)) { w with log := w.log ++ [f x] } = _
      rw [ih, List.map_cons, List.append_assoc, List.singleton_append]

/-- A construction which is completed is logged and leaves its graph in the workspace. -/
theorem complete_apply
    {a closed : Assembly} {g : FlowGraph} (hclosed : a.close = .ok closed)
    (hresult : closed.result = .ok g) (w : Workspace) :
  complete a w
    = .ok () { w with
      graph := g
      log := w.log ++ closed.bindingLog.map fun x => .bound x.1 x.2 }
  := by
  have hlog := forM_log (fun x => .bound x.1 x.2) closed.bindingLog w
  simp only [complete, hclosed]
  change EStateM.bind (closed.bindingLog.forM fun x => log (.bound x.1 x.2)) _ w = _
  simp only [EStateM.bind, hlog, hresult]
  rfl

/-- Building the flow graph of a method puts it into the workspace, and logs the bindings of the
closed construction and how many nodes there are. -/
theorem build_eq
    {m : Method} {a closed : Assembly} {g : FlowGraph} (ha : m.assembly = .ok a)
    (hclosed : a.close = .ok closed) (hresult : closed.result = .ok g) (w : Workspace) :
  build m w = .ok () { w with
    graph := g
    log := w.log ++ (closed.bindingLog.map (fun x => .bound x.1 x.2) ++ [.built m.name g.size]) }
  := by
  have hrun := complete_apply hclosed hresult w
  simp only [build, ha]
  change EStateM.bind (complete a) _ w = _
  simp only [EStateM.bind, hrun]
  rw [← List.append_assoc]
  rfl

/-- Building the flow graph of a method puts it into the workspace, and logs where labels were bound
and how many nodes there are. -/
theorem exists_build
    {m : Method} {g : FlowGraph} (h : m.flowGraph = .ok g) :
  ∃ bindings : List (Label × Node), ∀ w, build m w = .ok () { w with
    graph := g
    log := w.log ++ (bindings.map (fun x => .bound x.1 x.2) ++ [.built m.name g.size]) }
  := by
  obtain ⟨a, ha, hcomplete⟩ := ok_of_bind h
  obtain ⟨closed, hclosed, hresult⟩ := ok_of_bind hcomplete
  exact ⟨closed.bindingLog, build_eq ha hclosed hresult⟩

theorem build_apply
    {m : Method} {g : FlowGraph} (h : m.flowGraph = .ok g) (w : Workspace) :
  ∃ events, build m w = .ok () { w with graph := g, log := w.log ++ events }
  := by
  obtain ⟨bindings, hbuild⟩ := exists_build h
  exact ⟨_, hbuild w⟩

end Job

/-- Every method has a flow graph, which is what the job that builds it leaves in the workspace, and
under any outcomes of its conditions the graph is executed as the method is: the same happens, and
the run ends in the same way. -/
theorem Method.flowGraph_preserves_execution
    (m : Method) :
  ∃ g, m.flowGraph = .ok g
    ∧ (∀ w, ∃ events, Job.build m w = .ok () { w with graph := g, log := w.log ++ events })
    ∧ ∀ os es e, g.Executes os es e ↔ m.execute os = ⟨es, e⟩
  := by
  obtain ⟨a, ha, hsound, hdeferred⟩ := m.exists_assembly
  obtain ⟨g, hcomplete, hg⟩ := hsound.complete hdeferred
  have hgraph : m.flowGraph = .ok g := by
    rw [Method.flowGraph, ha]
    apply hcomplete
  have hexecutes : ∀ os, g.Executes os (m.execute os).observations (m.execute os).ending := by
    intro os
    rw [FlowGraph.executes_iff]
    apply continues_of_executes_code ha hg (m.executes_code os)
  use g, hgraph, Job.build_apply hgraph
  intro os es e
  constructor
  · intro h
    obtain ⟨rfl, rfl⟩ := h.unique (hexecutes os)
    rfl
  · intro h
    have hos := hexecutes os
    rw [h] at hos
    apply hos

end MethodFlow
