import MethodFlow.Walk.Basic

/-!
# What computations along a walk keep

A computation keeps a part of the state if the part is the same when it ends, also when it fails.
Entering a node and leaving it again keeps the trail, provided that leaving undoes entering
(`Walk.keeps_trail_node`).  If a step depends on the visits behind it only in states in which some
number is smaller, visits come to the same however deep they may be nested, once they may be nested
deeper than that number (`Walk.nest_eq_nest`).
-/

namespace MethodFlow

/-- Leaving a node just entered gives the trail as it was before. -/
def Trail.Reversible (τ : Type) [Trail τ] : Prop :=
  ∀ (n : Node) (t t' : τ), Trail.enter? n t = some t' → Trail.leave n t' = t

theorem Path.reversible :
  Trail.Reversible Path
  := fun _ _ _ => leave_of_enter?

theorem MarkedPath.reversible :
  Trail.Reversible MarkedPath
  := fun _ _ _ => leave_of_enter?

namespace Walk

variable {τ σ ι α β γ : Type} {part : Progress τ σ → γ}

/-- The state in which a computation ends, also when it fails. -/
def final : EStateM.Result Failure (Progress τ σ) α → Progress τ σ
  | .ok _ s => s
  | .error _ s => s

theorem final_bind
    (x : Walk τ σ α) (f : α → Walk τ σ β) (s : Progress τ σ) :
  final ((x >>= f) s)
    = match x s with
      | .ok a s' => final (f a s')
      | .error _ s' => s'
  := by
  rw [bind_apply]
  cases x s <;> rfl

/-- A part of the state is the same when the computation ends, also when it fails. -/
def Keeps (part : Progress τ σ → γ) (act : Walk τ σ α) : Prop :=
  ∀ s, part (final (act s)) = part s

theorem keeps_pure
    (a : α) :
  Keeps part (pure a)
  := fun _ => rfl

theorem keeps_ofExcept
    (x : Except Failure α) :
  Keeps part (MonadExcept.ofExcept x)
  := by
  intro s
  cases x <;> rfl

theorem keeps_bind
    {x : Walk τ σ α} {f : α → Walk τ σ β} (hx : Keeps part x) (hf : ∀ a, Keeps part (f a)) :
  Keeps part (x >>= f)
  := by
  intro s
  rw [final_bind]
  have hfirst := hx s
  generalize x s = result at hfirst
  cases result with
  | ok a s' => exact (hf a s').trans hfirst
  | error e s' => exact hfirst

/-- A computation for each member of a list keeps what each of them keeps. -/
theorem keeps_forM
    {as : List α} {f : α → Walk τ σ Unit} (hf : ∀ a ∈ as, Keeps part (f a)) :
  Keeps part (as.forM f)
  := by
  induction as with
  | nil => apply keeps_pure
  | cons a as ih =>
      rw [List.forM_eq_forM, List.forM_cons]
      apply keeps_bind (hf a List.mem_cons_self)
      intro _
      apply ih
      intro b hb
      apply hf b (List.mem_cons_of_mem a hb)

theorem keeps_trail_work
    (f : σ → σ) :
  Keeps Progress.trail (work f : Walk τ σ Unit)
  := fun _ => rfl

/-- Where leaving undoes entering, the trail is kept at a node if the computations there keep it. -/
theorem keeps_trail_node [Trail τ]
    (hleave : Trail.Reversible τ) (n : Node) {refused inside : Walk τ σ α}
    (hrefused : Keeps Progress.trail refused) (hinside : Keeps Progress.trail inside) :
  Keeps Progress.trail (node n refused inside)
  := by
  intro s
  cases htrail : Trail.enter? n s.trail with
  | none =>
      rw [node_of_refused htrail]
      apply hrefused
  | some trail =>
      rw [node_of_entered htrail]
      have hback : Trail.leave n (final (inside { s with trail })).trail = s.trail := by
        rw [hinside { s with trail }]
        apply hleave n s.trail trail htrail
      generalize inside { s with trail } = result at hback
      cases result <;> exact hback

/-- What the computations at a node keep of the work is kept at the node. -/
theorem keeps_work_node [Trail τ]
    (part : σ → γ) (n : Node) {refused inside : Walk τ σ α}
    (hrefused : Keeps (part ·.work) refused) (hinside : Keeps (part ·.work) inside) :
  Keeps (part ·.work) (node n refused inside)
  := by
  intro s
  cases htrail : Trail.enter? n s.trail with
  | none =>
      rw [node_of_refused htrail]
      apply hrefused
  | some trail =>
      rw [node_of_entered htrail]
      have hback := hinside { s with trail }
      generalize inside { s with trail } = result at hback
      cases result <;> exact hback

/-- Visits nested to any depth keep what a step keeps whenever the visits behind it do. -/
theorem keeps_nest [Inhabited α]
    {step : (ι → Walk τ σ α) → ι → Walk τ σ α}
    (hstep : ∀ visit, (∀ i, Keeps part (visit i)) → ∀ i, Keeps part (step visit i))
    (depth : Nat) (i : ι) :
  Keeps part (nest step depth i)
  := by
  induction depth generalizing i with
  | zero => apply keeps_pure
  | succ depth ih => apply hstep _ ih

/-! ### Visits nested deep enough -/

/-- Sequences are the same if they start with the same computation and go on in the same way from
every state in which a part of the state, which the computation keeps, is what it is in the
beginning. -/
theorem bind_congr_of_keeps
    {x : Walk τ σ α} {f f' : α → Walk τ σ β} {s : Progress τ σ} (hkeeps : Keeps part x)
    (h : ∀ a s', part s' = part s → f a s' = f' a s') :
  (x >>= f) s = (x >>= f') s
  := by
  rw [bind_apply, bind_apply]
  have hfirst := hkeeps s
  generalize x s = result at hfirst
  cases result with
  | ok a s' => apply h a s' hfirst
  | error e s' => rfl

theorem node_congr [Trail τ]
    {n : Node} {refused inside inside' : Walk τ σ α} {s : Progress τ σ}
    (h : ∀ trail, Trail.enter? n s.trail = some trail →
      inside { s with trail } = inside' { s with trail }) :
  node n refused inside s = node n refused inside' s
  := by
  cases htrail : Trail.enter? n s.trail with
  | none => rw [node_of_refused htrail, node_of_refused htrail]
  | some trail => rw [node_of_entered htrail, node_of_entered htrail, h trail htrail]

/-- Computations for the members of a list are the same where they are the same in every state in
which a part of the state, which they keep, is what it is in the beginning. -/
theorem forM_congr_of_keeps
    {as : List α} {f f' : α → Walk τ σ Unit} {s : Progress τ σ}
    (hkeeps : ∀ a ∈ as, Keeps part (f a))
    (h : ∀ a ∈ as, ∀ s', part s' = part s → f a s' = f' a s') :
  as.forM f s = as.forM f' s
  := by
  induction as generalizing s with
  | nil => rfl
  | cons a as ih =>
      rw [List.forM_eq_forM, List.forM_cons, List.forM_cons, bind_apply, bind_apply,
        ← h a List.mem_cons_self s rfl]
      have hfirst := hkeeps a List.mem_cons_self s
      generalize f a s = result at hfirst
      cases result with
      | error e s' => rfl
      | ok _ s' =>
          apply ih
          · intro b hb
            apply hkeeps b (List.mem_cons_of_mem a hb)
          · intro b hb s'' hs''
            apply h b (List.mem_cons_of_mem a hb) s'' (hs''.trans hfirst)

/-- If a step depends on the visits behind it only in states of a smaller measure, visits come to
the same when they may be nested to any depth above the measure. -/
theorem nest_eq_nest [Inhabited α]
    {step : (ι → Walk τ σ α) → ι → Walk τ σ α} (measure : Progress τ σ → Nat)
    (hstep : ∀ depth depth' i s,
      (∀ i s', measure s' < measure s → nest step depth i s' = nest step depth' i s') →
        step (nest step depth) i s = step (nest step depth') i s)
    {depth depth' : Nat} {s : Progress τ σ} (h : measure s < depth) (h' : measure s < depth')
    (i : ι) :
  nest step depth i s = nest step depth' i s
  := by
  induction depth generalizing depth' i s with
  | zero => exact absurd h (Nat.not_lt_zero _)
  | succ depth ih =>
      cases depth' with
      | zero => exact absurd h' (Nat.not_lt_zero _)
      | succ depth' =>
          rw [nest_succ, nest_succ]
          apply hstep
          intro i s' hlt
          apply ih <;> omega

end Walk

end MethodFlow
