import Mathlib.Data.List.Forall2
import MethodFlow.Proofs.Graph.Survey
import MethodFlow.Proofs.Walk.Keeping
import MethodFlow.Walk.Tour

/-!
# Steps of a tour

A step of a tour records a node which the trail refuses.  A node which the trail lets in is
recorded, and then its successors are visited, unless one of its slots is not set.  On a trail on
which leaving undoes entering, a tour ends as it started (`Tour.trail_tour`).
-/

namespace MethodFlow

namespace FlowGraph

variable {g : FlowGraph} {n : Node}

/-- A node has successors exactly if its slots are set; these are what the slots lead to. -/
theorem successors_eq_ok_iff
    {ms : List Node} :
  g.successors n = .ok ms
    ↔ List.Forall₂ (fun p m => (g.content n).target? p = some m) (g.exits n) ms
  := by
  unfold successors
  generalize g.exits n = ps
  induction ps generalizing ms with
  | nil =>
      rw [List.forall₂_nil_left_iff, List.mapM_nil]
      constructor
      · intro h
        exact (Except.ok.inj h).symm
      · rintro rfl
        rfl
  | cons p ps ih =>
      rw [List.mapM_cons, List.forall₂_cons_left_iff]
      constructor
      · intro h
        cases hm : g.target ⟨n, p⟩ with
        | error e =>
            rw [hm] at h
            contradiction
        | ok m =>
            cases hms : ps.mapM fun p => g.target ⟨n, p⟩ with
            | error e =>
                rw [hm, hms] at h
                contradiction
            | ok ms' =>
                rw [hm, hms] at h
                exact ⟨m, ms', target_eq_ok_iff.mp hm, ih.mp hms, (Except.ok.inj h).symm⟩
      · rintro ⟨m, ms', hm, hms, rfl⟩
        have hm' : g.target ⟨n, p⟩ = .ok m := target_eq_ok_iff.mpr hm
        rw [hm', ih.mpr hms]
        rfl

/-- The successors of a node are the nodes to which its exits lead. -/
theorem mem_successors_iff
    {ms : List Node} (h : g.successors n = .ok ms) {m : Node} :
  m ∈ ms ↔ g.Edge n m
  := by
  have hmem : m ∈ ms ↔ ∃ p ∈ g.exits n, (g.content n).target? p = some m := by
    have hset := successors_eq_ok_iff.mp h
    clear h
    generalize g.exits n = ps at hset ⊢
    induction hset with
    | nil => simp
    | cons hp _ ih => simp [ih, hp, eq_comm]
  rw [hmem]
  constructor
  · rintro ⟨p, -, hp⟩
    exact ⟨p, hp⟩
  · rintro ⟨p, hp⟩
    exact ⟨p, mem_exits_of_target? hp, hp⟩

/-- A node has successors exactly if every slot of it is set. -/
theorem exists_successors_iff :
  (∃ ms, g.successors n = .ok ms) ↔ ∀ p ∈ g.exits n, ∃ m, (g.content n).target? p = some m
  := by
  simp only [successors_eq_ok_iff]
  generalize g.exits n = ps
  induction ps with
  | nil => simp
  | cons p ps ih =>
      rw [List.forall_mem_cons, ← ih]
      simp only [List.forall₂_cons_left_iff]
      constructor
      · rintro ⟨_, m, ms, hm, hms, -⟩
        exact ⟨⟨m, hm⟩, ms, hms⟩
      · rintro ⟨⟨m, hm⟩, ms, hms⟩
        exact ⟨_, m, ms, hm, hms, rfl⟩

end FlowGraph

namespace Tour

open Walk

variable {τ : Type} [Trail τ] {g : FlowGraph} {n : Node} {trail : τ}
  {s : Progress τ (Array Meeting)} {visit : Node → Walk τ (Array Meeting) Unit}

/-- The state once a node was met. -/
def meet (m : Meeting) (s : Progress τ (Array Meeting)) : Progress τ (Array Meeting) :=
  { s with work := s.work.push m }

theorem step_of_refused
    (h : Trail.enter? n s.trail = none) :
  step g visit n s = .ok () (meet ⟨n, false⟩ s)
  := node_of_refused h

/-- A node which the trail lets in is recorded, and its successors are visited before it is left. -/
theorem step_of_entered
    (h : Trail.enter? n s.trail = some trail) {ms : List Node} (hms : g.successors n = .ok ms) :
  step g visit n s
    = match ms.forM visit (meet ⟨n, true⟩ { s with trail }) with
      | .ok a s' => .ok a { s' with trail := Trail.leave n s'.trail }
      | .error e s' => .error e { s' with trail := Trail.leave n s'.trail }
  := by
  have hpure : (MonadExcept.ofExcept (.ok ms) : Walk τ (Array Meeting) (List Node)) = pure ms := rfl
  rw [step, node_of_entered h, bind_apply, record, work_apply, hms, hpure]
  dsimp only
  rw [pure_bind]
  unfold meet
  generalize ms.forM visit _ = result
  cases result <;> rfl

theorem step_of_unset
    (h : Trail.enter? n s.trail = some trail) {e : Failure} (he : g.successors n = .error e) :
  step g visit n s = .error e { meet ⟨n, true⟩ s with trail := Trail.leave n trail }
  := by
  rw [step, node_of_entered h, bind_apply, record, work_apply, he]
  rfl

/-- A step keeps the trail if the visits behind it do and leaving undoes entering. -/
theorem keeps_trail_step
    (hleave : Trail.Reversible τ) (hvisit : ∀ n, Keeps Progress.trail (visit n)) (n : Node) :
  Keeps Progress.trail (step g visit n)
  := by
  apply keeps_trail_node hleave
  · apply keeps_trail_work
  · apply keeps_bind (keeps_trail_work _)
    intro _
    apply keeps_bind (keeps_ofExcept _)
    intro ms
    apply keeps_forM
    intro m _
    apply hvisit m

/-- Where leaving undoes entering, visits nested to any depth keep the trail. -/
theorem keeps_trail_nest
    (hleave : Trail.Reversible τ) (g : FlowGraph) (depth : Nat) (n : Node) :
  Keeps Progress.trail (nest (step (τ := τ) g) depth n)
  := by
  apply keeps_nest
  intro visit
  apply keeps_trail_step hleave

/-- Where leaving undoes entering, a tour ends with the trail it starts with, also when it fails. -/
theorem trail_tour
    (hleave : Trail.Reversible τ) (g : FlowGraph) (n : Node) :
  (g.tour τ n).trail = Trail.empty
  := by
  have hback := keeps_trail_nest hleave g g.nesting n ⟨Trail.empty, #[]⟩
  unfold FlowGraph.tour
  generalize nest (step g) g.nesting n (⟨Trail.empty, #[]⟩ : Progress τ _) = result at hback
  cases result <;> exact hback

end Tour

end MethodFlow
