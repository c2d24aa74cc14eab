import MethodFlow.Proofs.Graph.Run

/-!
# Executions of a flow graph

`FlowGraph.Executes` is a run from the start which comes to an end, at the stop or at a condition
for which no outcome is left.  `FlowGraph.Continues` is the same from any node, built up from the
end, and `FlowGraph.Executes.unique` says that the outcomes determine the execution.
-/

namespace MethodFlow

/-- How a run ends. -/
inductive Ending where
  /-- The method came to its end. -/
  | finished
  /-- A condition waits for its outcome. -/
  | waiting
deriving DecidableEq

namespace FlowGraph

variable {g : FlowGraph} {n k m : Node} {os : List Bool} {es es' : List Observation} {e e' : Ending}

/-- The run under the outcomes `os` from the start ends as told, and `es` is what happens.  A method
which finishes leaves the outcomes it does not need. -/
def Executes (g : FlowGraph) (os : List Bool) (es : List Observation) : Ending → Prop
  | .finished => ∃ used, used <+: os ∧ g.Run .start used es .stop
  | .waiting => ∃ n, g.kind n = .jump ∧ g.Run .start os es n

/-- Some run from the start under the outcomes `os`, or under some of them, begins with what happens
in `es`. -/
def Observes (g : FlowGraph) (os : List Bool) (es : List Observation) : Prop :=
  ∃ used es' n, used <+: os ∧ g.Run .start used es' n ∧ es <+: es'

/-- The run under the outcomes `os` from a node ends as told, and `es` is what happens. -/
inductive Continues (g : FlowGraph) :
    Node → List Bool → List Observation → Ending → Prop where
  | stop (os : List Bool) : Continues g .stop os [] .finished
  | wait {n : Node} (hn : g.kind n = .jump) : Continues g n [] [] .waiting
  | step {n k : Node} {p : Exit} {os : List Bool} {es : List Observation} {e : Ending}
      (hp : (g.content n).target? p = some k) (h : Continues g k os es e) :
      Continues g n (p.outcomes ++ os) ((g.content n).observations ++ es) e

theorem Continues.of_run
    {os' : List Bool} (hrun : g.Run n os es k) (h : g.Continues k os' es' e) :
  g.Continues n (os ++ os') (es ++ es') e
  := by
  obtain ⟨route, hroute, rfl, rfl⟩ := hrun
  induction hroute with
  | refl n => apply h
  | step hp hroute ih =>
      rw [outcomes_cons, observations_cons, List.append_assoc, List.append_assoc]
      apply Continues.step hp (ih h)

/-- What goes on from a node runs to the stop or to a jump. -/
theorem Continues.exists_run
    (h : g.Continues n os es e) :
  match e with
  | .finished => ∃ used, used <+: os ∧ g.Run n used es .stop
  | .waiting => ∃ m, g.kind m = .jump ∧ g.Run n os es m
  := by
  induction h with
  | stop os => exact ⟨[], List.nil_prefix, Run.refl .stop⟩
  | wait hn => exact ⟨_, hn, Run.refl _⟩
  | @step n k p os es e hp h ih =>
      cases e with
      | finished =>
          obtain ⟨used, hused, hrun⟩ := ih
          use p.outcomes ++ used, (List.prefix_append_right_inj _).mpr hused
          apply Run.step hp hrun
      | waiting =>
          obtain ⟨m, hm, hrun⟩ := ih
          use m, hm
          apply Run.step hp hrun

/-- An execution goes on from the start. -/
theorem executes_iff :
  g.Executes os es e ↔ g.Continues .start os es e
  := by
  constructor
  · intro h
    cases e with
    | finished =>
        obtain ⟨used, ⟨os, rfl⟩, hrun⟩ := h
        simpa using Continues.of_run hrun (Continues.stop os)
    | waiting =>
        obtain ⟨n, hn, hrun⟩ := h
        simpa using Continues.of_run hrun (Continues.wait hn)
  · intro h
    have hrun := h.exists_run
    cases e with
    | finished => apply hrun
    | waiting => apply hrun

theorem exit_eq_of_outcomes
    {p q : Exit} {os' : List Bool} (hp : (g.content n).target? p = some k)
    (hq : (g.content n).target? q = some m) (h : p.outcomes ++ os = q.outcomes ++ os') :
  p = q ∧ os = os'
  := by
  cases hn : g.content n <;> rw [hn] at hp hq <;> cases p <;> cases q <;>
    simp_all [Content.target?, Exit.outcomes]

theorem outcomes_ne_nil
    {p : Exit} (hn : g.kind n = .jump) (hp : (g.content n).target? p = some k) :
  p.outcomes ≠ []
  := by
  unfold kind at hn
  cases hcontent : g.content n <;> rw [hcontent] at hn hp <;> cases p <;>
    simp_all [Content.target?, Content.kind, Exit.outcomes]

/-- The outcomes decide how things go on from a node. -/
theorem Continues.unique
    (h : g.Continues n os es e) (h' : g.Continues n os es' e') :
  es = es' ∧ e = e'
  := by
  induction h generalizing es' with
  | stop os =>
      cases h' with
      | stop => exact ⟨rfl, rfl⟩
      | wait hn => contradiction
      | step hp => contradiction
  | wait hn =>
      generalize hos : [] = os at h'
      cases h' with
      | stop => contradiction
      | wait => exact ⟨rfl, rfl⟩
      | step hp =>
          obtain ⟨houtcomes, -⟩ := List.append_eq_nil_iff.mp hos.symm
          exact absurd houtcomes (outcomes_ne_nil hn hp)
  | @step n k p os es e hp h ih =>
      generalize hos : p.outcomes ++ os = os' at h'
      cases h' with
      | stop => contradiction
      | wait hn =>
          obtain ⟨houtcomes, -⟩ := List.append_eq_nil_iff.mp hos
          exact absurd houtcomes (outcomes_ne_nil hn hp)
      | step hq h' =>
          obtain ⟨rfl, rfl⟩ := exit_eq_of_outcomes hp hq hos
          obtain rfl := Option.some.inj (hp.symm.trans hq)
          obtain ⟨rfl, rfl⟩ := ih h'
          exact ⟨rfl, rfl⟩

/-- The outcomes determine the execution. -/
theorem Executes.unique
    (h : g.Executes os es e) (h' : g.Executes os es' e') :
  es = es' ∧ e = e'
  := by
  rw [executes_iff] at h h'
  apply h.unique h'

end FlowGraph

end MethodFlow
