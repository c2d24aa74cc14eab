import MethodFlow.Proofs.LinearCode.Run

/-!
# Runs of linear code which need not come to an end

`LinearCode.Leads` runs linear code from one position to another, and `LinearCode.Observes` says
what may have happened when such a run is cut off anywhere.  A return goes to the end of the code.
Code runs to an ending if it runs to a position from which it runs to the ending (`Leads.executes`).
-/

namespace MethodFlow

namespace LinearCode

variable {l : Label} {before after before' after' before'' after'' code : List Instruction}
  {os os' : List Bool} {es es' : List Observation} {e : Ending}

/-- The code runs from the first position to the second under the outcomes `os`, and `es` is what
happens. -/
inductive Leads :
    List Instruction → List Instruction → List Bool → List Observation →
      List Instruction → List Instruction → Prop where
  | refl {before after : List Instruction} : Leads before after [] [] before after
  | place {before after before' after' : List Instruction} {l : Label} {os : List Bool}
      {es : List Observation} (h : Leads (before ++ [.place l]) after os es before' after') :
      Leads before (.place l :: after) os es before' after'
  | act {before after before' after' : List Instruction} {a : Action} {os : List Bool}
      {es : List Observation} (ha : a.endsMethod = false)
      (h : Leads (before ++ [.act a]) after os es before' after') :
      Leads before (.act a :: after) os (.act a :: es) before' after'
  /-- A return goes to the end. -/
  | ret {before after : List Instruction} {a : Action} (ha : a.endsMethod = true) :
      Leads before (.act a :: after) [] [.act a] (before ++ .act a :: after) []
  | branch {before after before' after' before'' after'' : List Instruction} {c : Expr}
      {t f : Label} {o : Bool} {os : List Bool} {es : List Observation}
      (hl : Finds (if o then t else f) before (.branch c t f :: after) before' after')
      (h : Leads before' after' os es before'' after'') :
      Leads before (.branch c t f :: after) (o :: os) (.test c :: es) before'' after''
  | jump {before after before' after' before'' after'' : List Instruction} {l : Label}
      {os : List Bool} {es : List Observation}
      (hl : Finds l before (.jump l :: after) before' after')
      (h : Leads before' after' os es before'' after'') :
      Leads before (.jump l :: after) os es before'' after''

/-- Some run from the position under the outcomes `os`, or under some of them, begins with what
happens in `es`. -/
def Observes (before after : List Instruction) (os : List Bool) (es : List Observation) : Prop :=
  ∃ used es' before' after', used <+: os ∧ Leads before after used es' before' after' ∧ es <+: es'

/-- Runs are put together end to end. -/
theorem Leads.trans
    (h : Leads before after os es before' after')
    (h' : Leads before' after' os' es' before'' after'') :
  Leads before after (os ++ os') (es ++ es') before'' after''
  := by
  induction h with
  | refl => apply h'
  | place _ ih => apply Leads.place (ih h')
  | act ha _ ih => apply Leads.act ha (ih h')
  | ret ha =>
      -- there is nothing behind the end
      cases h'
      apply Leads.ret ha
  | branch hl _ ih => apply Leads.branch hl (ih h')
  | jump hl _ ih => apply Leads.jump hl (ih h')

theorem Leads.append_eq
    (h : Leads before after os es before' after') :
  before' ++ after' = before ++ after
  := by
  induction h with
  | refl => rfl
  | place _ ih => simpa using ih
  | act _ _ ih => simpa using ih
  | ret _ => apply List.append_nil
  | branch hl _ ih => rw [ih, hl.append_eq]
  | jump hl _ ih => rw [ih, hl.append_eq]

/-- What runs to an ending from the end of a run does so from its beginning. -/
theorem Leads.executes
    (h : Leads before after os es before' after') (h' : Executes before' after' os' es' e) :
  Executes before after (os ++ os') (es ++ es') e
  := by
  induction h with
  | refl => apply h'
  | place _ ih => apply Executes.place (ih h')
  | act ha _ ih => apply Executes.act ha (ih h')
  | ret ha =>
      cases h'
      apply Executes.ret ha
  | branch hl _ ih => apply Executes.branch hl (ih h')
  | jump hl _ ih => apply Executes.jump hl (ih h')

/-! ### Labels which are placed are found -/

/-- A label is placed by a place of it. -/
theorem mem_placed_iff :
  l ∈ placed code ↔ .place l ∈ code
  := by
  rw [placed, List.mem_flatMap]
  constructor
  · rintro ⟨i, hi, hl⟩
    cases i with
    | place l' =>
        obtain rfl := List.mem_singleton.mp hl
        apply hi
    | _ => contradiction
  · intro h
    exact ⟨.place l, h, List.mem_singleton_self l⟩

theorem exists_first_place
    (h : l ∈ placed code) :
  ∃ between after, code = between ++ .place l :: after ∧ l ∉ placed between
  := by
  obtain ⟨between, after, rfl, hbetween⟩ := List.eq_append_cons_of_mem (mem_placed_iff.mp h)
  use between, after, rfl
  rwa [mem_placed_iff]

/-- A label which is placed is placed a last time. -/
theorem exists_last_place
    (h : l ∈ placed code) :
  ∃ before between, code = before ++ .place l :: between ∧ l ∉ placed between
  := by
  have hmem : .place l ∈ code.reverse := List.mem_reverse.mpr (mem_placed_iff.mp h)
  obtain ⟨between, before, hcode, hbetween⟩ := List.eq_append_cons_of_mem hmem
  use before.reverse, between.reverse
  constructor
  · rw [← List.reverse_reverse code, hcode]
    simp
  · rwa [mem_placed_iff, List.mem_reverse]

/-- A label which is placed somewhere is found from every position. -/
theorem exists_finds
    (h : l ∈ placed (before ++ after)) :
  ∃ before' after', Finds l before after before' after'
  := by
  by_cases hbefore : l ∈ placed before
  · obtain ⟨before', between, rfl, hbetween⟩ := exists_last_place hbefore
    exact ⟨_, _, Finds.back hbetween⟩
  · rw [placed_append, List.mem_append] at h
    obtain ⟨between, after', rfl, hbetween⟩ := exists_first_place (h.resolve_left hbefore)
    exact ⟨_, _, Finds.ahead hbefore hbetween⟩

theorem Finds.exists_place
    (h : Finds l before after before' after') :
  ∃ before'', before' = before'' ++ [.place l]
  := by
  cases h with
  | back _ => exact ⟨_, rfl⟩
  | ahead _ _ => exact ⟨_, rfl⟩

theorem Finds.exists_ahead
    (h : Finds l before after before' after') (hbefore : l ∉ placed before) :
  ∃ between, before' = before ++ between ++ [.place l]
  := by
  cases h with
  | back _ => simp [Instruction.placed] at hbefore
  | ahead _ _ => exact ⟨_, rfl⟩

end LinearCode

end MethodFlow
