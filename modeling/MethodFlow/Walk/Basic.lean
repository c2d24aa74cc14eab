import MethodFlow.Graph.Basic
import MethodFlow.Walk.Trail

/-!
# Walks

A `Walk` is a computation which follows the slots of a flow graph depth first.  It keeps a trail and
some work of its own, and keeps both when it fails.  `Walk.node` enters a node if the trail lets it
and leaves the node in any case; `Walk.within` is such a bracket around a computation; `Walk.nest`
ties the knot of a visitor which visits the nodes behind a node, to a given depth of nesting.  A
visit is nested no deeper than there are nodes on the trail, so the depth `FlowGraph.nesting` is
never used up.
-/

namespace MethodFlow

/-- The state of a walk: its trail and the work done so far. -/
structure Progress (τ σ : Type) where
  trail : τ
  work : σ
deriving Inhabited

/-- A computation along a walk with trail `τ` and work `σ`. -/
abbrev Walk (τ σ α : Type) : Type :=
  EStateM Failure (Progress τ σ) α

namespace Walk

variable {τ σ ι α β : Type}

/-- A computation between two changes of the state, the second of which is made even when the
computation fails. -/
def within (before after : Progress τ σ → Progress τ σ) (act : Walk τ σ α) : Walk τ σ α :=
  fun s =>
    match act (before s) with
    | .ok a s' => .ok a (after s')
    | .error e s' => .error e (after s')

/-- Enters a node, computes `inside` and leaves the node, or computes `refused` if the trail refuses
the node. -/
def node [Trail τ] (n : Node) (refused inside : Walk τ σ α) : Walk τ σ α :=
  fun s =>
    match Trail.enter? n s.trail with
    | none => refused s
    | some trail =>
      within ({ · with trail }) (fun s => { s with trail := Trail.leave n s.trail }) inside s

/-- The visitor which visits by `step`, given how to visit, with visits nested at most so deep. -/
def nest [Inhabited α] (step : (ι → Walk τ σ α) → ι → Walk τ σ α) : Nat → ι → Walk τ σ α
  | 0, _ => pure default
  | depth + 1, i => step (nest step depth) i

/-- Changes the work done so far. -/
def work (f : σ → σ) : Walk τ σ Unit :=
  modify fun s => { s with work := f s.work }

/-- Where a slot of a graph leads. -/
def target (g : FlowGraph) (s : Slot) : Walk τ σ Node :=
  MonadExcept.ofExcept (g.target s)

/-! ### Computations applied to a state -/

@[simp]
theorem pure_apply
    (a : α) (s : Progress τ σ) :
  (pure a : Walk τ σ α) s = .ok a s
  := rfl

theorem bind_apply
    (x : Walk τ σ α) (f : α → Walk τ σ β) (s : Progress τ σ) :
  (x >>= f) s
    = match x s with
      | .ok a s' => f a s'
      | .error e s' => .error e s'
  := by
  change EStateM.bind x f s = _
  unfold EStateM.bind
  cases x s <;> rfl

/-- A sequence of two computations succeeds exactly when both do, the second one from where the
first one ends. -/
theorem bind_eq_ok_iff
    {x : Walk τ σ α} {f : α → Walk τ σ β} {s s' : Progress τ σ} {b : β} :
  (x >>= f) s = .ok b s' ↔ ∃ a t, x s = .ok a t ∧ f a t = .ok b s'
  := by
  rw [bind_apply]
  cases x s with
  | ok a t =>
      constructor
      · intro h
        exact ⟨a, t, rfl, h⟩
      · intro ⟨_, _, hx, hf⟩
        cases hx
        exact hf
  | error e t => simp

@[simp]
theorem work_apply
    (f : σ → σ) (s : Progress τ σ) :
  work f s = .ok () { s with work := f s.work }
  := rfl

theorem target_apply
    (g : FlowGraph) (slot : Slot) (s : Progress τ σ) :
  target g slot s
    = match g.target slot with
      | .ok m => .ok m s
      | .error e => .error e s
  := by
  unfold target
  cases g.target slot <;> rfl

theorem node_of_refused [Trail τ]
    {n : Node} {refused inside : Walk τ σ α} {s : Progress τ σ}
    (h : Trail.enter? n s.trail = none) :
  node n refused inside s = refused s
  := by
  simp only [node, h]

/-- A node which the trail lets in is entered with the new trail and left in any case. -/
theorem node_of_entered [Trail τ]
    {n : Node} {refused inside : Walk τ σ α} {s : Progress τ σ} {trail : τ}
    (h : Trail.enter? n s.trail = some trail) :
  node n refused inside s
    = match inside { s with trail } with
      | .ok a s' => .ok a { s' with trail := Trail.leave n s'.trail }
      | .error e s' => .error e { s' with trail := Trail.leave n s'.trail }
  := by
  simp only [node, h, within]

@[simp]
theorem nest_succ [Inhabited α]
    (step : (ι → Walk τ σ α) → ι → Walk τ σ α) (depth : Nat) (i : ι) :
  nest step (depth + 1) i = step (nest step depth) i
  := rfl

end Walk

/-- A depth which nested visits of a graph cannot exceed: each one but the last is inside a
different node. -/
def FlowGraph.nesting (g : FlowGraph) : Nat :=
  g.size + 1

end MethodFlow
