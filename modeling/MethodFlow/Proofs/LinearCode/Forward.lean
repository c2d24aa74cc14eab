import MethodFlow.Proofs.LinearCode.Leads

/-!
# Going forward through linear code

`LinearCode.Forward` says which positions of linear code are reached without going back to a label,
and `LinearCode.GoesBack` where jumps from there go back to.  Code into which nothing before it
jumps is entered at its beginning (`Forward.enter`).
-/

namespace MethodFlow

namespace LinearCode

variable {l : Label} {i : Instruction}
  {before after before' after' code pre segment post : List Instruction}

/-- The position in the code is reached without going back to a label. -/
inductive Forward (code : List Instruction) : List Instruction → List Instruction → Prop where
  | first : Forward code [] code
  | place {before after : List Instruction} {l : Label}
      (h : Forward code before (.place l :: after)) :
      Forward code (before ++ [.place l]) after
  | act {before after : List Instruction} {a : Action} (ha : a.endsMethod = false)
      (h : Forward code before (.act a :: after)) : Forward code (before ++ [.act a]) after
  | target {before after before' after' : List Instruction} {i : Instruction} {l : Label}
      (hl : l ∈ i.targets) (hbefore : l ∉ placed before)
      (hfinds : Finds l before (i :: after) before' after')
      (h : Forward code before (i :: after)) : Forward code before' after'

/-- A jump, reached without going back, goes back to the position. -/
def GoesBack (code before' after' : List Instruction) : Prop :=
  ∃ before i after l, Forward code before (i :: after) ∧ l ∈ i.targets ∧ l ∈ placed before
    ∧ Finds l before (i :: after) before' after'

/-- Jumps back in the code go to branches which are also reached going forward. -/
def Reducible (code : List Instruction) : Prop :=
  ∀ before after, GoesBack code before after →
    Forward code before after ∧ ∃ c t f rest, after = .branch c t f :: rest

theorem Forward.append_eq
    (h : Forward code before after) :
  before ++ after = code
  := by
  induction h with
  | first => rfl
  | place _ ih => simpa using ih
  | act _ _ ih => simpa using ih
  | target _ _ hfinds _ ih => rw [hfinds.append_eq, ih]

/-- An instruction behind the beginning of a part of the code is behind it or in the part before. -/
theorem mem_of_not_isPrefix
    (hpre : pre <+: before ++ i :: after) (h : ¬ pre <+: before) :
  i ∈ pre
  := by
  obtain ⟨rest, hrest⟩ := hpre
  obtain ⟨between, hbetween, -⟩ | ⟨between, hbetween, hafter⟩ := List.append_eq_append_iff.mp hrest
  · exact absurd ⟨between, hbetween.symm⟩ h
  · cases between with
    | nil =>
        rw [List.append_nil] at hbetween
        exact absurd (hbetween ▸ List.prefix_rfl) h
    | cons i' between =>
        obtain ⟨rfl, -⟩ := List.cons.inj hafter
        rw [hbetween]
        simp

/-- Code into which nothing before it jumps is entered at its beginning. -/
theorem Forward.enter
    (h : Forward (pre ++ (segment ++ post)) before after) (hpre : pre <+: before)
    (hsegment : before <+: pre ++ segment) (hentry : ∀ l ∈ placed segment, l ∉ targets pre) :
  Forward (pre ++ (segment ++ post)) pre (segment ++ post)
  := by
  have hhere : ∀ {after}, Forward (pre ++ (segment ++ post)) pre after →
      Forward (pre ++ (segment ++ post)) pre (segment ++ post) := by
    intro after h
    rwa [List.append_cancel_left h.append_eq] at h
  induction h with
  | first =>
      obtain rfl := List.prefix_nil.mp hpre
      apply Forward.first
  | place h ih =>
      obtain rfl | hpre := List.prefix_concat_iff.mp hpre
      · apply hhere (Forward.place h)
      · apply ih hpre ((List.prefix_append _ _).trans hsegment)
  | act ha h ih =>
      obtain rfl | hpre := List.prefix_concat_iff.mp hpre
      · apply hhere (Forward.act ha h)
      · apply ih hpre ((List.prefix_append _ _).trans hsegment)
  | @target before after _ _ i l hl hbefore hfinds h ih =>
      obtain ⟨between, rfl⟩ := hfinds.exists_ahead hbefore
      by_cases hpre' : pre <+: before
      · apply ih hpre'
        rw [List.append_assoc] at hsegment
        apply (List.prefix_append _ _).trans hsegment
      · obtain rfl | hpre := List.prefix_concat_iff.mp hpre
        · apply hhere (Forward.target hl hbefore hfinds h)
        · -- the jump comes from before the segment and goes into it
          obtain ⟨inner, hinner⟩ := hpre
          rw [← hinner, List.append_assoc, List.prefix_append_right_inj] at hsegment
          have hplace : l ∈ placed segment := by
            apply mem_placed_iff.mpr
            apply hsegment.subset
            simp
          have hi : i ∈ pre := by
            apply mem_of_not_isPrefix _ hpre'
            · exact after
            · rw [h.append_eq]
              apply List.prefix_append
          apply absurd _ (hentry l hplace)
          apply List.mem_flatMap.mpr ⟨i, hi, hl⟩

end LinearCode

end MethodFlow
