import MethodFlow.Walk.Basic

/-!
# Walks which mirror each other

Two walks may keep different things and come to the same all the same.  `Walk.Mirrors P Q F` says of
two computations that, started in states in the relation `P`, they both succeed with the same result
in states in the relation `Q`, or fail for the same reason in states in the relation `F`.
Computations which are put together in the same way mirror each other if their parts do.  Visits
nested to any depth are related if steps are wherever the visits behind them are
(`Walk.nest_related`).
-/

namespace MethodFlow

namespace Walk

variable {τ τ' σ σ' ι ι' α β : Type}

/-- Both computations succeed with the same result in related states, or fail for the same reason in
related states. -/
inductive Alike (Q F : Progress τ σ → Progress τ' σ' → Prop) :
    EStateM.Result Failure (Progress τ σ) α → EStateM.Result Failure (Progress τ' σ') α → Prop
  | ok {a : α} {s : Progress τ σ} {t : Progress τ' σ'} (h : Q s t) : Alike Q F (.ok a s) (.ok a t)
  | error {e : Failure} {s : Progress τ σ} {t : Progress τ' σ'} (h : F s t) :
      Alike Q F (.error e s) (.error e t)

/-- Started in states in the relation `P`, the computations end alike. -/
def Mirrors (P Q F : Progress τ σ → Progress τ' σ' → Prop) (x : Walk τ σ α) (y : Walk τ' σ' α) :
    Prop :=
  ∀ s t, P s t → Alike Q F (x s) (y t)

variable {P P' Q Q' R F F' : Progress τ σ → Progress τ' σ' → Prop}

theorem mirrors_pure
    (a : α) :
  Mirrors P P F (pure a) (pure a)
  := fun _ _ h => .ok h

theorem mirrors_ofExcept
    (hF : ∀ s t, P s t → F s t) (x : Except Failure α) :
  Mirrors P P F (MonadExcept.ofExcept x) (MonadExcept.ofExcept x)
  := by
  intro s t h
  cases x with
  | ok a => exact .ok h
  | error e => exact .error (hF s t h)

theorem mirrors_work
    {f : σ → σ} {f' : σ' → σ'}
    (h : ∀ s t, P s t → Q { s with work := f s.work } { t with work := f' t.work }) :
  Mirrors P Q F (work f) (work f')
  := fun s t hs => .ok (h s t hs)

/-- Sequences mirror each other if their parts do, the second ones where the first ones end. -/
theorem Mirrors.bind
    {x : Walk τ σ α} {y : Walk τ' σ' α} {k : α → Walk τ σ β} {k' : α → Walk τ' σ' β}
    (hx : Mirrors P Q F x y) (hk : ∀ a, Mirrors Q R F (k a) (k' a)) :
  Mirrors P R F (x >>= k) (y >>= k')
  := by
  intro s t h
  rw [bind_apply, bind_apply]
  have hfirst := hx s t h
  generalize x s = first, y t = first' at hfirst
  cases hfirst with
  | ok h => exact hk _ _ _ h
  | error h => exact .error h

/-- Computations for the members of a list mirror each other if each two do. -/
theorem mirrors_forM
    {k : α → Walk τ σ Unit} {k' : α → Walk τ' σ' Unit} {as : List α}
    (hk : ∀ a ∈ as, Mirrors P P F (k a) (k' a)) :
  Mirrors P P F (as.forM k) (as.forM k')
  := by
  induction as with
  | nil => apply mirrors_pure
  | cons a as ih =>
      apply (hk a List.mem_cons_self).bind
      intro _
      apply ih
      intro b hb
      apply hk b (List.mem_cons_of_mem a hb)

/-- Brackets mirror each other if the computations inside do and both changes go from related states
to related states. -/
theorem mirrors_within
    {before after : Progress τ σ → Progress τ σ} {before' after' : Progress τ' σ' → Progress τ' σ'}
    {x : Walk τ σ α} {y : Walk τ' σ' α} (hbefore : ∀ s t, P s t → P' (before s) (before' t))
    (hx : Mirrors P' Q' F' x y) (hafter : ∀ s t, Q' s t → Q (after s) (after' t))
    (hfailed : ∀ s t, F' s t → F (after s) (after' t)) :
  Mirrors P Q F (within before after x) (within before' after' y)
  := by
  intro s t h
  have hinside := hx _ _ (hbefore s t h)
  unfold within
  generalize x (before s) = result, y (before' t) = result' at hinside
  cases hinside with
  | ok h => exact .ok (hafter _ _ h)
  | error h => exact .error (hfailed _ _ h)

/-- What relates visitors which do nothing, and steps wherever it relates the visits behind them,
relates visits nested to any depth. -/
theorem nest_related [Inhabited α]
    {Related : (ι → Walk τ σ α) → (ι' → Walk τ' σ' α) → Prop}
    {step : (ι → Walk τ σ α) → ι → Walk τ σ α} {step' : (ι' → Walk τ' σ' α) → ι' → Walk τ' σ' α}
    (hpure : Related (fun _ => pure default) (fun _ => pure default))
    (hstep : ∀ visit visit', Related visit visit' → Related (step visit) (step' visit'))
    (depth : Nat) :
  Related (nest step depth) (nest step' depth)
  := by
  induction depth with
  | zero => exact hpure
  | succ depth ih => exact hstep _ _ ih

end Walk

end MethodFlow
