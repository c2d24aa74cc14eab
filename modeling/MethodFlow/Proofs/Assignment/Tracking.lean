import MethodFlow.Proofs.Assignment.Exploration
import MethodFlow.Proofs.Assignment.Status

/-!
# Scopes and statuses

The innermost scope of the check knows the status of every variable, and so do all scopes together,
since a variable which is declared once keeps its value from an outer scope on to the inner ones.
`FlowGraph.Tracks` is this invariant, and `FlowGraph.Tracks.mem_unassignedAll` says that the check
then finds just what `FlowGraph.Misreads` says.
-/

namespace MethodFlow

namespace Scope

variable {sc : Scope} {v : Variable}

/-- The status of a variable of which the scope says what it says. -/
def status (sc : Scope) (v : Variable) : Status :=
  match sc.state? v with
  | none => .undeclared
  | some false => .unassigned
  | some true => .assigned

theorem hasValue_iff :
  sc.hasValue v = true ↔ sc.status v = .assigned
  := by
  unfold hasValue status
  rcases sc.state? v with _ | _ | _ <;> simp

theorem isSome_state?_iff :
  (sc.state? v).isSome = true ↔ sc.status v ≠ .undeclared
  := by
  unfold status
  rcases sc.state? v with _ | _ | _ <;> simp

theorem status_declare
    (sc : Scope) (v w : Variable) :
  (sc.declare w).status v = if w.id = v.id then .unassigned else sc.status v
  := by
  rw [status, state?_declare]
  by_cases h : v.id = w.id
  · rw [if_pos h, if_pos h.symm]
  · rw [if_neg h, if_neg (Ne.symm h)]
    rfl

/-- Assigning to a variable gives a value to it if it is declared. -/
theorem status_assign
    (sc : Scope) (v w : Variable) :
  (sc.assign w).status v
    = if w.id = v.id ∧ sc.status v ≠ .undeclared then .assigned else sc.status v
  := by
  rw [status, state?_assign]
  by_cases h : v.id = w.id
  · have hstate : sc.state? w = sc.state? v := by rw [state?, state?, h]
    simp only [hstate, isSome_state?_iff]
    by_cases hv : sc.status v ≠ .undeclared
    · rw [if_pos ⟨h, hv⟩, if_pos ⟨h.symm, hv⟩]
    · rw [if_neg (fun h => hv h.2), if_neg (fun h => hv h.2)]
      rfl
  · rw [if_neg (fun h' => h h'.1), if_neg (fun h' => h h'.1.symm)]
    rfl

/-- An action does to a scope what it does to the status of each variable. -/
theorem status_run
    (sc : Scope) (v : Variable) (a : Action) :
  (sc.run a).status v = Status.after v (sc.status v) (.act a)
  := by
  cases a with
  | declare _ w => apply status_declare
  | assign w _ => apply status_assign
  | define _ w _ =>
      rw [run, status_assign, status_declare]
      by_cases h : w.id = v.id <;> simp [Status.after, h]
  | _ => rfl

/-- The parameters have values, and nothing else is said. -/
theorem status_ofParameters
    (parameters : List Parameter) (v : Variable) :
  (ofParameters parameters).status v
    = if v.id ∈ parameters.map (·.var.id) then .assigned else .undeclared
  := by
  induction parameters with
  | nil => rfl
  | cons p parameters ih =>
      by_cases h : v.id = p.var.id
      · simp [status, state?, ofParameters, h]
      · have hlookup : (ofParameters (p :: parameters)).status v
            = (ofParameters parameters).status v := by
          simp [status, state?, ofParameters, List.lookup_cons, beq_false_of_ne h]
        rw [hlookup, ih]
        simp [h]

end Scope

namespace FlowGraph

variable {g : FlowGraph} {v : Variable} {es os : List Observation} {o : Observation}
  {scopes : List Scope}

/-- The parameters and what was declared so far, as often as it was. -/
def said (g : FlowGraph) (es : List Observation) : List Nat :=
  g.parameters.map (·.var.id) ++ es.flatMap Observation.declared

/-- The innermost scope knows the status of every variable after all of `es` happened, and the outer
scopes do not allow to read more. -/
def Tracks (g : FlowGraph) (es : List Observation) : List Scope → Prop
  | [] => False
  | sc :: outer =>
    (∀ v, sc.status v = g.status v es)
      ∧ ∀ v, Scope.allows outer v = true → g.status v es = .assigned

theorem status_concat
    (v : Variable) (es : List Observation) (o : Observation) :
  g.status v (es ++ [o]) = Status.after v (g.status v es) o
  := by
  simp [status, Status.afterAll]

/-- A variable has a status of its own only if something was said of it. -/
theorem mem_said_of_status
    (h : g.status v es ≠ .undeclared) :
  v.id ∈ g.said es
  := by
  by_contra hsaid
  rw [said, List.mem_append, not_or] at hsaid
  apply h
  rw [status, entryStatus, if_neg hsaid.1]
  apply Status.afterAll_undeclared hsaid.2

/-- At the start of a method, the check has a scope of the parameters. -/
theorem tracks_ofParameters
    (g : FlowGraph) :
  g.Tracks [] [Scope.ofParameters g.parameters]
  := by
  constructor
  · intro v
    apply Scope.status_ofParameters
  · intro v h
    contradiction

namespace Tracks

/-- The variables which may be read are those which have values. -/
theorem allows_iff
    (h : g.Tracks es scopes) (v : Variable) :
  Scope.allows scopes v = true ↔ g.status v es = .assigned
  := by
  cases scopes with
  | nil => apply h.elim
  | cons sc outer =>
      obtain ⟨hinner, houter⟩ := h
      rw [Scope.allows, List.any_cons, Bool.or_eq_true, Scope.hasValue_iff, hinner]
      constructor
      · rintro (hv | hv)
        · apply hv
        · apply houter v hv
      · intro hv
        left
        apply hv

/-- It is enough to copy the innermost scope. -/
theorem opened
    (h : g.Tracks es scopes) :
  g.Tracks es (Assignment.opened scopes)
  := by
  cases scopes with
  | nil => apply h.elim
  | cons sc outer =>
      constructor
      · apply h.1
      · intro v
        apply (h.allows_iff v).mp

/-- It is enough to change the innermost scope, as long as no variable is declared twice. -/
theorem after
    (h : g.Tracks es scopes) (honce : (g.said (es ++ [o])).Nodup) :
  g.Tracks (es ++ [o]) (Assignment.after scopes o)
  := by
  have hkeep : ∀ v, g.status v es = .assigned → g.status v (es ++ [o]) = .assigned := by
    intro v hv
    have hsaid : v.id ∈ g.said es := by
      apply mem_said_of_status
      rw [hv]
      decide
    rw [status_concat, hv]
    apply Status.after_assigned
    intro hdeclared
    rw [said, List.flatMap_append, ← List.append_assoc] at honce
    apply (List.nodup_append.mp honce).2.2 _ hsaid v.id _ rfl
    simpa using hdeclared
  cases scopes with
  | nil => apply h.elim
  | cons sc outer =>
      obtain ⟨hinner, houter⟩ := h
      cases o with
      | act a =>
          constructor
          · intro v
            rw [status_concat, ← hinner]
            apply Scope.status_run
          · intro v hv
            apply hkeep v (houter v hv)
      | test c =>
          constructor
          · intro v
            rw [status_concat, hinner]
            rfl
          · intro v hv
            apply hkeep v (houter v hv)

theorem nodup_said
    (h : (g.said (es ++ os)).Nodup) :
  (g.said es).Nodup
  := by
  rw [said, List.flatMap_append, ← List.append_assoc] at h
  apply (List.nodup_append.mp h).1

/-- The innermost scope is kept up to date as long as no variable is declared twice. -/
theorem afterAll
    (h : g.Tracks es scopes) (honce : (g.said (es ++ os)).Nodup) :
  g.Tracks (es ++ os) (Assignment.afterAll scopes os)
  := by
  induction os generalizing es scopes with
  | nil =>
      rw [List.append_nil]
      apply h
  | cons o os ih =>
      rw [List.append_cons] at honce ⊢
      apply ih (h.after (nodup_said honce)) honce

end Tracks

/-- A variable is read without a value at first or later. -/
theorem misreads_cons :
  g.Misreads v es (o :: os)
    ↔ (v ∈ o.reads ∧ g.status v es ≠ .assigned) ∨ g.Misreads v (es ++ [o]) os
  := by
  constructor
  · rintro ⟨before, o', rest, hos, hreads, h⟩
    cases before with
    | nil =>
        obtain ⟨rfl, rfl⟩ := List.cons.inj hos
        left
        rw [List.append_nil] at h
        exact ⟨hreads, h⟩
    | cons o'' before =>
        obtain ⟨rfl, rfl⟩ := List.cons.inj hos
        right
        rw [List.append_cons] at h
        exact ⟨before, o', rest, rfl, hreads, h⟩
  · rintro (⟨hreads, h⟩ | ⟨before, o', rest, rfl, hreads, h⟩)
    · use [], o, os, rfl, hreads
      rwa [List.append_nil]
    · use o :: before, o', rest, rfl, hreads
      rwa [List.append_cons]

/-- The check finds the names of the variables which are read without values. -/
theorem Tracks.mem_unassignedAll
    (h : g.Tracks es scopes) (honce : (g.said (es ++ os)).Nodup) (f : Finding) :
  f ∈ Assignment.unassignedAll scopes os ↔ ∃ v, f = .unassigned v.name ∧ g.Misreads v es os
  := by
  induction os generalizing es scopes with
  | nil => simp [Assignment.unassignedAll, Misreads]
  | cons o os ih =>
      have hhere : f ∈ Assignment.unassigned scopes o
          ↔ ∃ v, f = .unassigned v.name ∧ v ∈ o.reads ∧ g.status v es ≠ .assigned := by
        simp only [Assignment.unassigned, List.mem_map, List.mem_filter, Bool.not_eq_true',
          Bool.eq_false_iff, ne_eq, h.allows_iff]
        grind
      rw [List.append_cons] at honce
      have hlater := ih (h.after (Tracks.nodup_said honce)) honce
      rw [Assignment.unassignedAll, List.mem_append, hhere, hlater, ← exists_or]
      simp only [misreads_cons, and_or_left]

end FlowGraph

end MethodFlow
