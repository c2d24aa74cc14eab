import MethodFlow.Walk.Basic

/-!
# Tours

A `Tour` is the record of a walk which does nothing but walk: the nodes it met in order, each one
entered or refused, the trail it ended with, and how it ended.
-/

namespace MethodFlow

/-- A node met by a walk. -/
structure Meeting where
  node : Node
  /-- Whether the node was entered. -/
  entered : Bool
deriving DecidableEq, Inhabited

/-- The record of a walk. -/
structure Tour (τ : Type) where
  /-- The nodes met, in order. -/
  meetings : List Meeting
  /-- The trail at the end. -/
  trail : τ
  /-- How the walk ended. -/
  outcome : Except Failure Unit

namespace Tour

variable {τ : Type}

/-- Every node met, in order. -/
def visits (t : Tour τ) : List Node :=
  t.meetings.map Meeting.node

/-- The nodes entered, in order. -/
def entries (t : Tour τ) : List Node :=
  (t.meetings.filter Meeting.entered).map Meeting.node

/-- The nodes refused, in order. -/
def refusals (t : Tour τ) : List Node :=
  (t.meetings.filter (!·.entered)).map Meeting.node

/-- Records a meeting. -/
def record (m : Meeting) : Walk τ (Array Meeting) Unit :=
  Walk.work (·.push m)

/-- Meets a node and, if it is entered, visits its successors in the order of its exits.  Nothing is
visited unless all its slots are set. -/
def step [Trail τ] (g : FlowGraph) (visit : Node → Walk τ (Array Meeting) Unit) (n : Node) :
    Walk τ (Array Meeting) Unit :=
  Walk.node n (record ⟨n, false⟩) do
    record ⟨n, true⟩
    let successors ← MonadExcept.ofExcept (g.successors n)
    successors.forM visit

end Tour

/-- The tour of a graph from a node. -/
def FlowGraph.tour (τ : Type) [Trail τ] (g : FlowGraph) (n : Node) : Tour τ :=
  match Walk.nest (Tour.step g) g.nesting n ⟨Trail.empty, #[]⟩ with
  | .ok _ s => ⟨s.work.toList, s.trail, .ok ()⟩
  | .error e s => ⟨s.work.toList, s.trail, .error e⟩

end MethodFlow
