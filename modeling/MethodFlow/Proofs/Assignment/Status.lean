import Mathlib.Data.List.Pairwise
import Mathlib.Data.List.Nodup
import MethodFlow.Proofs.Graph.Run
import MethodFlow.Proofs.Graph.Unvisited

/-!
# The status of a variable along a run

What happens along a run declares a variable or assigns it a value; `FlowGraph.status` is what it
comes to.  `FlowGraph.ReadsUnassigned` says that some run from the start, of any length, reads a
variable while it has no value.  If no variable is declared twice, such a run may be cut to one
which comes to no node twice (`exists_simple`): from each node it goes on as the run did when it
left the node for the last time.
-/

namespace MethodFlow

/-- What was said of a variable. -/
inductive Status where
  /-- Nothing. -/
  | undeclared
  /-- It was declared and has no value. -/
  | unassigned
  /-- It has a value. -/
  | assigned
deriving DecidableEq

/-- The variables, by number, which are declared when something happens. -/
def Observation.declared : Observation → List Nat
  | .act (.declare _ w) | .act (.define _ w _) => [w.id]
  | _ => []

namespace Status

variable {v : Variable} {o : Observation} {os : List Observation}

/-- The status of a variable after something happened.  A declaration takes the value away, or gives
the initial one; an assignment gives a value to a declared variable only. -/
def after (v : Variable) (st : Status) : Observation → Status
  | .act (.declare _ w) => if w.id = v.id then .unassigned else st
  | .act (.define _ w _) => if w.id = v.id then .assigned else st
  | .act (.assign w _) => if w.id = v.id ∧ st ≠ .undeclared then .assigned else st
  | .act (.eval _) | .act (.ret _) | .test _ => st

/-- The status of a variable after all of a list happened. -/
def afterAll (v : Variable) (st : Status) (os : List Observation) : Status :=
  os.foldl (after v) st

@[simp]
theorem afterAll_append
    (v : Variable) (st : Status) (os os' : List Observation) :
  afterAll v st (os ++ os') = afterAll v (afterAll v st os) os'
  := by
  simp [afterAll]

theorem after_eq_of_declared
    (h : v.id ∈ o.declared) (st st' : Status) :
  after v st o = after v st' o
  := by
  revert h
  fun_cases Observation.declared o <;> simp +contextual [after]

theorem after_ne_undeclared
    (h : v.id ∈ o.declared) (st : Status) :
  after v st o ≠ .undeclared
  := by
  revert h
  fun_cases Observation.declared o <;> simp +contextual [after]

theorem after_undeclared
    (h : v.id ∉ o.declared) :
  after v .undeclared o = .undeclared
  := by
  revert h
  fun_cases after v .undeclared o <;> simp_all [Observation.declared]

theorem after_assigned
    (h : v.id ∉ o.declared) :
  after v .assigned o = .assigned
  := by
  revert h
  fun_cases after v .assigned o <;> simp_all [Observation.declared]

theorem after_ne_undeclared_of_ne
    {st : Status} (h : st ≠ .undeclared) :
  after v st o ≠ .undeclared
  := by
  fun_cases after v st o <;> simp_all

theorem afterAll_undeclared
    (h : v.id ∉ os.flatMap Observation.declared) :
  afterAll v .undeclared os = .undeclared
  := by
  induction os with
  | nil => rfl
  | cons o os ih =>
      simp only [List.flatMap_cons, List.mem_append, not_or] at h
      change afterAll v (after v .undeclared o) os = _
      rw [after_undeclared h.1]
      apply ih h.2

theorem afterAll_assigned
    (h : v.id ∉ os.flatMap Observation.declared) :
  afterAll v .assigned os = .assigned
  := by
  induction os with
  | nil => rfl
  | cons o os ih =>
      simp only [List.flatMap_cons, List.mem_append, not_or] at h
      change afterAll v (after v .assigned o) os = _
      rw [after_assigned h.1]
      apply ih h.2

theorem afterAll_ne_undeclared_of_ne
    {st : Status} (h : st ≠ .undeclared) (os : List Observation) :
  afterAll v st os ≠ .undeclared
  := by
  induction os generalizing st with
  | nil => apply h
  | cons o os ih => apply ih (after_ne_undeclared_of_ne h)

/-- Where a variable is declared, its status does not depend on the one before. -/
theorem afterAll_eq_of_declared
    (h : v.id ∈ os.flatMap Observation.declared) (st st' : Status) :
  afterAll v st os = afterAll v st' os ∧ afterAll v st os ≠ .undeclared
  := by
  induction os generalizing st st' with
  | nil => simp at h
  | cons o os ih =>
      by_cases ho : v.id ∈ o.declared
      · change afterAll v (after v st o) os = afterAll v (after v st' o) os ∧ _
        rw [after_eq_of_declared ho st st']
        constructor
        · rfl
        · apply afterAll_ne_undeclared_of_ne (after_ne_undeclared ho st)
      · apply ih
        simpa [ho] using h

/-- A variable without a value has none either if nothing was said of it before. -/
theorem afterAll_undeclared_ne_assigned
    {st : Status} (h : afterAll v st os ≠ .assigned) :
  afterAll v .undeclared os ≠ .assigned
  := by
  by_cases hdeclared : v.id ∈ os.flatMap Observation.declared
  · rwa [(afterAll_eq_of_declared hdeclared .undeclared st).1]
  · rw [afterAll_undeclared hdeclared]
    decide

/-- Nothing of a list gives a value to the variable. -/
def Quiet (v : Variable) (os : List Observation) : Prop :=
  ∀ o ∈ os, after v .unassigned o = .unassigned

theorem quiet_append
    {os' : List Observation} :
  Quiet v (os ++ os') ↔ Quiet v os ∧ Quiet v os'
  := by
  apply List.forall_mem_append

/-- A variable to which nothing gives a value has none in the end. -/
theorem Quiet.afterAll_eq
    (h : Quiet v os) :
  afterAll v .unassigned os = .unassigned
  := by
  induction os with
  | nil => rfl
  | cons o os ih =>
      change afterAll v (after v .unassigned o) os = _
      rw [h o List.mem_cons_self]
      apply ih
      intro o' ho'
      apply h o' (List.mem_cons_of_mem o ho')

/-- If a variable has no value in the end and is not declared, nothing gave a value to it. -/
theorem quiet_of_afterAll
    (hdeclared : v.id ∉ os.flatMap Observation.declared)
    (h : afterAll v .unassigned os ≠ .assigned) :
  Quiet v os
  := by
  induction os with
  | nil =>
      intro o ho
      contradiction
  | cons o os ih =>
      simp only [List.flatMap_cons, List.mem_append, not_or] at hdeclared
      change afterAll v (after v .unassigned o) os ≠ _ at h
      cases hst : after v .unassigned o with
      | undeclared => exact absurd hst (after_ne_undeclared_of_ne (by decide))
      | assigned =>
          rw [hst, afterAll_assigned hdeclared.2] at h
          contradiction
      | unassigned =>
          rw [hst] at h
          intro o' ho'
          obtain rfl | ho' := List.mem_cons.mp ho'
          · apply hst
          · apply ih hdeclared.2 h o' ho'

end Status

/-- The variables, by number, which are declared at a node. -/
def Content.declared (c : Content) : List Nat :=
  c.observations.flatMap Observation.declared

namespace FlowGraph

variable {g : FlowGraph} {v : Variable} {n k m : Node} {route : List Slot}

/-- Every variable, by number, which is a parameter or is declared at a node, as often as it is. -/
def declared (g : FlowGraph) : List Nat :=
  g.parameters.map (·.var.id) ++ g.nodes.flatMap fun n => (g.content n).declared

/-- No variable is declared twice. -/
def DeclaresOnce (g : FlowGraph) : Prop :=
  g.declared.Nodup

/-- The status of a variable when a method starts. -/
def entryStatus (g : FlowGraph) (v : Variable) : Status :=
  if v.id ∈ g.parameters.map (·.var.id) then .assigned else .undeclared

/-- The status of a variable after a method started and all of a list happened. -/
def status (g : FlowGraph) (v : Variable) (es : List Observation) : Status :=
  Status.afterAll v (g.entryStatus v) es

/-- All of `es` happened, and while all of `os` happens the variable is read when it has no
value. -/
def Misreads (g : FlowGraph) (v : Variable) (es os : List Observation) : Prop :=
  ∃ before o rest, os = before ++ o :: rest ∧ v ∈ o.reads
    ∧ g.status v (es ++ before) ≠ .assigned

/-- Along some route from the start, the variable is read at the last node when it has no value. -/
def ReadsUnassigned (g : FlowGraph) (v : Variable) : Prop :=
  ∃ route n, g.Leads .start route n
    ∧ g.Misreads v (g.observations route) (g.content n).observations

/-! ### Variables which are declared once -/

theorem mem_nodes_of_declared
    {i : Nat} (h : i ∈ (g.content n).declared) :
  n ∈ g.nodes
  := by
  by_contra hn
  rw [content_of_not_mem_nodes hn] at h
  contradiction

theorem DeclaresOnce.nodup_declared
    (h : g.DeclaresOnce) (n : Node) :
  (g.content n).declared.Nodup
  := by
  by_cases hn : n ∈ g.nodes
  · obtain ⟨-, hnodes, -⟩ := List.nodup_append.mp h
    apply (List.nodup_flatMap.mp hnodes).1 n hn
  · rw [content_of_not_mem_nodes hn]
    apply List.nodup_nil

theorem DeclaresOnce.not_mem_declared
    (h : g.DeclaresOnce) {i : Nat} (hi : i ∈ g.parameters.map (·.var.id)) (n : Node) :
  i ∉ (g.content n).declared
  := by
  intro hn
  obtain ⟨-, -, hdisjoint⟩ := List.nodup_append.mp h
  apply hdisjoint i hi i _ rfl
  apply List.mem_flatMap.mpr
  exact ⟨n, mem_nodes_of_declared hn, hn⟩

/-- A variable is declared at one node only. -/
theorem DeclaresOnce.eq_of_declared
    (h : g.DeclaresOnce) {i : Nat} (hn : i ∈ (g.content n).declared)
    (hm : i ∈ (g.content m).declared) :
  n = m
  := by
  by_contra hne
  obtain ⟨-, hnodes, -⟩ := List.nodup_append.mp h
  have : Std.Symm fun a b => List.Disjoint (g.content a).declared (g.content b).declared :=
    ⟨fun _ _ h _ hb ha => h ha hb⟩
  have hdisjoint := (List.nodup_flatMap.mp hnodes).2.forall
    (mem_nodes_of_declared hn) (mem_nodes_of_declared hm) hne
  apply hdisjoint hn hm

/-- What is declared along a route, up to some point at its last node, is declared at one of its
nodes. -/
theorem mem_declared_observations
    {before rest : List Observation} (hm : (g.content m).observations = before ++ rest) {i : Nat}
    (h : i ∈ (g.observations route ++ before).flatMap Observation.declared) :
  ∃ n ∈ route.map Slot.node ++ [m], i ∈ (g.content n).declared
  := by
  rw [List.flatMap_append, List.mem_append] at h
  obtain h | h := h
  · simp only [observations, List.mem_flatMap] at h
    obtain ⟨o, ⟨s, hs, ho⟩, hi⟩ := h
    use s.node, List.mem_append_left _ (List.mem_map_of_mem hs)
    apply List.mem_flatMap.mpr ⟨o, ho, hi⟩
  · use m, List.mem_append_right _ List.mem_cons_self
    rw [Content.declared, hm, List.flatMap_append]
    apply List.mem_append_left _ h

/-! ### Cutting loops out of a route -/

/-- A route can be taken up at any node it comes to. -/
theorem Leads.exists_suffix
    (h : g.Leads k route m) (hn : n ∈ route.map Slot.node ++ [m]) :
  ∃ first second, route = first ++ second ∧ g.Leads n second m
  := by
  induction h with
  | refl m =>
      obtain rfl : n = m := by simpa using hn
      exact ⟨[], [], rfl, Leads.refl n⟩
  | @step j k m p route hp h ih =>
      rw [List.map_cons, List.cons_append, List.mem_cons] at hn
      obtain rfl | hn := hn
      · exact ⟨[], _, rfl, Leads.step hp h⟩
      · obtain ⟨first, second, rfl, hsecond⟩ := ih hn
        exact ⟨⟨j, p⟩ :: first, second, rfl, hsecond⟩

theorem Leads.mem_nodes
    (h : g.Leads n route m) :
  n ∈ route.map Slot.node ++ [m]
  := by
  cases h <;> simp

/-- `simple` is a route from `n` to `m` which comes to no node twice and leaves only nodes which
`route` leaves. -/
structure Simple (g : FlowGraph) (n : Node) (route : List Slot) (m : Node) (simple : List Slot) :
    Prop where
  leads : g.Leads n simple m
  nodup : (simple.map Slot.node ++ [m]).Nodup
  subset : simple.map Slot.node ⊆ route.map Slot.node

/-- A simple route stays simple when a node is put in front to which it does not come. -/
theorem Simple.cons
    {p : Exit} {simple : List Slot} (hp : (g.content n).target? p = some k)
    (h : g.Simple k route m simple) (hn : n ∉ route.map Slot.node ++ [m]) :
  g.Simple n (⟨n, p⟩ :: route) m (⟨n, p⟩ :: simple)
  := by
  simp only [List.mem_append, not_or] at hn
  constructor
  · apply Leads.step hp h.leads
  · rw [List.map_cons, List.cons_append, List.nodup_cons]
    constructor
    · intro hmem
      obtain hmem | hmem := List.mem_append.mp hmem
      · apply hn.1 (h.subset hmem)
      · apply hn.2 hmem
    · apply h.nodup
  · rw [List.map_cons, List.map_cons]
    apply List.cons_subset_cons _ h.subset

theorem Simple.mono
    {route' simple : List Slot} (h : g.Simple n route m simple)
    (hsubset : route.map Slot.node ⊆ route'.map Slot.node) :
  g.Simple n route' m simple
  := ⟨h.leads, h.nodup, List.Subset.trans h.subset hsubset⟩

/-- What a cut route says of a variable for which the whole route says that it has no value: nothing
so far, or that it was declared and that nothing later on the route gives it a value. -/
def Lacks (v : Variable) (st : Status) (es : List Observation) : Prop :=
  st = .undeclared ∨ st = .unassigned ∧ Status.Quiet v es

theorem Lacks.of_append
    {st : Status} {es es' : List Observation} (h : Lacks v st (es ++ es')) :
  Lacks v st es'
  := by
  obtain h | ⟨h, hquiet⟩ := h
  · left
    apply h
  · right
    exact ⟨h, (Status.quiet_append.mp hquiet).2⟩

/-- It goes on like this where a node is left to which the route does not come back. -/
theorem DeclaresOnce.lacks_afterAll
    (honce : g.DeclaresOnce) {before rest : List Observation} {st st₀ : Status}
    (hn : n ∉ route.map Slot.node ++ [m]) (hm : (g.content m).observations = before ++ rest)
    (h : Status.afterAll v st
      ((g.content n).observations ++ (g.observations route ++ before)) ≠ .assigned)
    (hlacks : Lacks v st₀ ((g.content n).observations ++ (g.observations route ++ before))) :
  Lacks v (Status.afterAll v st₀ (g.content n).observations) (g.observations route ++ before)
  := by
  obtain rfl | ⟨rfl, hquiet⟩ := hlacks
  · by_cases hdeclared : v.id ∈ (g.content n).declared
    · right
      -- The variable is declared here, hence nowhere later.
      have hlater : v.id ∉ (g.observations route ++ before).flatMap Observation.declared := by
        intro hmem
        obtain ⟨k, hk, hkdeclared⟩ := mem_declared_observations hm hmem
        rw [← honce.eq_of_declared hdeclared hkdeclared] at hk
        apply hn hk
      obtain ⟨heq, hne⟩ := Status.afterAll_eq_of_declared hdeclared .undeclared st
      rw [Status.afterAll_append, ← heq] at h
      cases hst : Status.afterAll v .undeclared (g.content n).observations with
      | undeclared => contradiction
      | assigned =>
          rw [hst, Status.afterAll_assigned hlater] at h
          contradiction
      | unassigned =>
          rw [hst] at h
          exact ⟨rfl, Status.quiet_of_afterAll hlater h⟩
    · left
      apply Status.afterAll_undeclared hdeclared
  · obtain ⟨hhere, hlater⟩ := Status.quiet_append.mp hquiet
    right
    exact ⟨hhere.afterAll_eq, hlater⟩

/-- A variable which has no value at the end of a route has none at the end of a simple route
either, wherever the two start with what `Lacks` says. -/
theorem DeclaresOnce.exists_simple
    (honce : g.DeclaresOnce) {before rest : List Observation} {st st₀ : Status}
    (hm : (g.content m).observations = before ++ rest) (hroute : g.Leads n route m)
    (h : Status.afterAll v st (g.observations route ++ before) ≠ .assigned)
    (hlacks : Lacks v st₀ (g.observations route ++ before)) :
  ∃ simple, g.Simple n route m simple
    ∧ Status.afterAll v st₀ (g.observations simple ++ before) ≠ .assigned
  := by
  induction hlength : route.length using Nat.strongRecOn generalizing n route st st₀ with
  | ind length ih =>
      cases hroute with
      | refl n =>
          use []
          constructor
          · exact ⟨Leads.refl _, List.nodup_singleton _, List.Subset.refl _⟩
          · obtain rfl | ⟨rfl, hquiet⟩ := hlacks
            · apply Status.afterAll_undeclared_ne_assigned h
            · rw [hquiet.afterAll_eq]
              decide
      | @step _ k _ p route hp hroute =>
          rw [observations_cons, List.append_assoc] at h hlacks
          by_cases hn : n ∈ route.map Slot.node ++ [m]
          · -- The route comes back to its first node: it is taken up there.
            obtain ⟨first, second, rfl, hsecond⟩ := hroute.exists_suffix hn
            rw [observations_append, List.append_assoc, ← List.append_assoc] at h hlacks
            rw [Status.afterAll_append] at h
            have hshorter : second.length < length := by
              rw [← hlength, List.length_cons, List.length_append]
              omega
            obtain ⟨simple, hsimple, hfinal⟩ :=
              ih second.length hshorter hsecond h hlacks.of_append rfl
            use simple, hsimple.mono (by simp), hfinal
          · obtain ⟨simple, hsimple, hfinal⟩ := ih route.length (by simp [← hlength]) hroute
              (by rwa [Status.afterAll_append] at h) (honce.lacks_afterAll hn hm h hlacks) rfl
            use ⟨n, p⟩ :: simple, hsimple.cons hp hn
            rwa [observations_cons, List.append_assoc, Status.afterAll_append]

/-- If a variable is read when it has no value, it is so along a simple route. -/
theorem DeclaresOnce.readsUnassigned_iff
    (honce : g.DeclaresOnce) :
  g.ReadsUnassigned v
    ↔ ∃ route n, g.Leads .start route n ∧ (route.map Slot.node ++ [n]).Nodup
      ∧ g.Misreads v (g.observations route) (g.content n).observations
  := by
  constructor
  · intro ⟨route, n, hroute, before, o, rest, hn, hreads, h⟩
    -- A parameter would have kept its value.
    have hentry : g.entryStatus v = .undeclared := by
      by_contra hentry
      apply h
      have hparameter : v.id ∈ g.parameters.map (·.var.id) := by
        by_contra hparameter
        apply hentry (if_neg hparameter)
      rw [status, entryStatus, if_pos hparameter]
      apply Status.afterAll_assigned
      intro hmem
      obtain ⟨k, -, hk⟩ := mem_declared_observations hn hmem
      apply honce.not_mem_declared hparameter k hk
    obtain ⟨simple, hsimple, hfinal⟩ := honce.exists_simple hn hroute h (Or.inl hentry)
    exact ⟨simple, n, hsimple.leads, hsimple.nodup, before, o, rest, hn, hreads, hfinal⟩
  · intro ⟨route, n, hroute, _, h⟩
    exact ⟨route, n, hroute, h⟩

end FlowGraph

end MethodFlow
