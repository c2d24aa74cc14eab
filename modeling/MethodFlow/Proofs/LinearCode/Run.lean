import Mathlib.Data.List.Nodup
import MethodFlow.LinearCode.Instruction
import MethodFlow.Proofs.Graph.Execution

/-!
# Runs of linear code

A position in linear code is what stands before it and what stands after it.  `LinearCode.Executes`
runs linear code from a position on: a jump to a label goes on behind the last place of the label
before the jump, or else behind the first one after it.
-/

namespace MethodFlow

/-- The labels an instruction places. -/
def Instruction.placed : Instruction → List Label
  | .place l => [l]
  | _ => []

namespace LinearCode

variable {l : Label} {before after before' after' code : List Instruction}

/-- The labels which linear code places, in order. -/
def placed (code : List Instruction) : List Label :=
  code.flatMap Instruction.placed

/-- The labels to which linear code may jump, in order. -/
def targets (code : List Instruction) : List Label :=
  code.flatMap Instruction.targets

@[simp]
theorem placed_nil :
  placed [] = []
  := rfl

@[simp]
theorem placed_cons
    (i : Instruction) (code : List Instruction) :
  placed (i :: code) = i.placed ++ placed code
  := rfl

@[simp]
theorem placed_append
    (code code' : List Instruction) :
  placed (code ++ code') = placed code ++ placed code'
  := by
  simp [placed]

@[simp]
theorem targets_nil :
  targets [] = []
  := rfl

@[simp]
theorem targets_cons
    (i : Instruction) (code : List Instruction) :
  targets (i :: code) = i.targets ++ targets code
  := rfl

@[simp]
theorem targets_append
    (code code' : List Instruction) :
  targets (code ++ code') = targets code ++ targets code'
  := by
  simp [targets]

/-- A jump to `l` from the first position goes on at the second one. -/
inductive Finds (l : Label) :
    List Instruction → List Instruction → List Instruction → List Instruction → Prop where
  /-- The last place of the label before the jump. -/
  | back {before between after : List Instruction} (h : l ∉ placed between) :
      Finds l (before ++ .place l :: between) after (before ++ [.place l]) (between ++ after)
  /-- The first place of the label after the jump, if there is none before it. -/
  | ahead {before between after : List Instruction} (hbefore : l ∉ placed before)
      (h : l ∉ placed between) :
      Finds l before (between ++ .place l :: after) (before ++ between ++ [.place l]) after

/-- From the position on, the code runs under the outcomes `os` to the ending, and `es` is what
happens.  Code which finishes leaves the outcomes it does not need. -/
inductive Executes :
    List Instruction → List Instruction → List Bool → List Observation → Ending → Prop where
  /-- Code which is at its end is finished. -/
  | stop {before : List Instruction} {os : List Bool} :
      Executes before [] os [] .finished
  | place {before after : List Instruction} {l : Label} {os : List Bool} {es : List Observation}
      {e : Ending} (h : Executes (before ++ [.place l]) after os es e) :
      Executes before (.place l :: after) os es e
  | act {before after : List Instruction} {a : Action} {os : List Bool} {es : List Observation}
      {e : Ending} (ha : a.endsMethod = false) (h : Executes (before ++ [.act a]) after os es e) :
      Executes before (.act a :: after) os (.act a :: es) e
  /-- A return ends the run. -/
  | ret {before after : List Instruction} {a : Action} {os : List Bool}
      (ha : a.endsMethod = true) :
      Executes before (.act a :: after) os [.act a] .finished
  /-- A branch waits if no outcome is left. -/
  | wait {before after : List Instruction} {c : Expr} {t f : Label} :
      Executes before (.branch c t f :: after) [] [] .waiting
  | branch {before after before' after' : List Instruction} {c : Expr} {t f : Label} {o : Bool}
      {os : List Bool} {es : List Observation} {e : Ending}
      (hl : Finds (if o then t else f) before (.branch c t f :: after) before' after')
      (h : Executes before' after' os es e) :
      Executes before (.branch c t f :: after) (o :: os) (.test c :: es) e
  | jump {before after before' after' : List Instruction} {l : Label} {os : List Bool}
      {es : List Observation} {e : Ending}
      (hl : Finds l before (.jump l :: after) before' after')
      (h : Executes before' after' os es e) :
      Executes before (.jump l :: after) os es e

theorem Finds.append_eq
    (h : Finds l before after before' after') :
  before' ++ after' = before ++ after
  := by
  cases h <;> simp

/-- Code which places no label twice places a label once. -/
theorem not_mem_placed_of_nodup
    (hnodup : (placed (before ++ .place l :: after)).Nodup) :
  l ∉ placed before ∧ l ∉ placed after
  := by
  rw [placed_append, placed_cons, Instruction.placed, List.singleton_append] at hnodup
  obtain ⟨-, hafter, hdisjoint⟩ := List.nodup_append.mp hnodup
  constructor
  · intro hl
    apply hdisjoint l hl l List.mem_cons_self rfl
  · apply (List.nodup_cons.mp hafter).1

/-- What places a label once finds it where it is placed. -/
theorem finds_of_nodup
    (hnodup : (placed code).Nodup) (h : before ++ after = code)
    (h' : before' ++ .place l :: after' = code) :
  Finds l before after (before' ++ [.place l]) after'
  := by
  subst h'
  have hunique := not_mem_placed_of_nodup hnodup
  obtain ⟨between, rfl, hbetween⟩ | ⟨between, rfl, hbetween⟩ := List.append_eq_append_iff.mp h
  · rw [placed_append, List.mem_append, not_or] at hunique
    rw [hbetween]
    apply Finds.ahead hunique.1.1 hunique.1.2
  · cases between with
    | nil =>
        rw [List.nil_append] at hbetween
        subst hbetween
        rw [List.append_nil]
        have hahead : Finds l before' ([] ++ .place l :: after') (before' ++ [] ++ [.place l])
            after' := Finds.ahead hunique.1 List.not_mem_nil
        simpa using hahead
    | cons i between =>
        obtain ⟨rfl, hafter⟩ := List.cons.inj hbetween
        change after' = between ++ after at hafter
        subst hafter
        rw [placed_append, List.mem_append, not_or] at hunique
        apply Finds.back hunique.2.1

end LinearCode

end MethodFlow
