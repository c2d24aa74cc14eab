import MethodFlow.Proofs.Assignment.Tracking

/-!
# The check of definite assignment is exact

The check follows a path only to the first node which is on it already.  If every slot which can be
reached is set and no variable is declared twice, it finds all the same every variable which any run
from the start reads without a value, however often the run goes round a loop, and finds nothing
else: `FlowGraph.unassignedReads_exact`.  `Assignment.mem_explore_iff` says what is found along the
simple routes, `FlowGraph.DeclaresOnce.readsUnassigned_iff` that these are enough.
-/

namespace MethodFlow

namespace Assignment

/-- Reports without a failure come to one without a failure, with all their findings. -/
theorem Report.all_eq
    {rs : List Report} (h : ∀ r ∈ rs, r.failure = none) :
  Report.all rs = ⟨rs.flatMap findings, none⟩
  := by
  induction rs with
  | nil => rfl
  | cons r rs ih =>
      change r.andThen (all rs) = _
      rw [ih fun r' hr' => h r' (List.mem_cons_of_mem r hr'), andThen, h r List.mem_cons_self]
      simp

end Assignment

namespace FlowGraph

variable {g : FlowGraph} {path : List Node} {n k : Node} {f : Finding}

/-- What happens along a path of visits, which lists the latest node first. -/
def trace (g : FlowGraph) (path : List Node) : List Observation :=
  path.reverse.flatMap fun n => (g.content n).observations

@[simp]
theorem trace_cons
    (n : Node) (path : List Node) :
  g.trace (n :: path) = g.trace path ++ (g.content n).observations
  := by
  simp [trace]

/-- Along a path which comes to no node twice, no variable is declared twice. -/
theorem DeclaresOnce.nodup_said
    (h : g.DeclaresOnce) (hpath : path.Nodup) :
  (g.said (g.trace path)).Nodup
  := by
  have hdeclared : (g.trace path).flatMap Observation.declared
      = path.reverse.flatMap fun n => (g.content n).declared := by
    rw [trace, List.flatMap_assoc]
    rfl
  rw [said, hdeclared, List.nodup_append]
  refine ⟨(List.nodup_append.mp h).1, ?_, ?_⟩
  · rw [List.nodup_flatMap]
    constructor
    · intro n _
      apply h.nodup_declared n
    · apply (List.nodup_reverse.mpr hpath).imp
      intro n m hne i hn hm
      apply hne (h.eq_of_declared hn hm)
  · intro i hi j hj hij
    obtain ⟨n, -, hn⟩ := List.mem_flatMap.mp hj
    rw [← hij] at hn
    apply h.not_mem_declared hi n hn

/-- Some simple route from `n`, off the path which leads there, comes to a node which reads the
variable named by `f` when it has no value. -/
def MissedBehind (g : FlowGraph) (path : List Node) (n : Node) (f : Finding) : Prop :=
  ∃ route m v, f = .unassigned v.name ∧ g.Leads n route m
    ∧ (path.reverse ++ (route.map Slot.node ++ [m])).Nodup
    ∧ g.Misreads v (g.trace path ++ g.observations route) (g.content m).observations

/-- No route off the path starts at a node of the path. -/
theorem MissedBehind.not_mem
    (h : g.MissedBehind path n f) :
  n ∉ path
  := by
  obtain ⟨route, m, v, -, hroute, hnodup, -⟩ := h
  intro hn
  obtain ⟨-, -, hdisjoint⟩ := List.nodup_append.mp hnodup
  apply hdisjoint n (List.mem_reverse.mpr hn) n hroute.mem_nodes rfl

/-- Off the path, a variable is read without a value at the first node or behind one of its
exits. -/
theorem missedBehind_iff
    (hpath : (n :: path).Nodup) :
  g.MissedBehind path n f
    ↔ (∃ v, f = .unassigned v.name ∧ g.Misreads v (g.trace path) (g.content n).observations)
      ∨ ∃ p k, (g.content n).target? p = some k ∧ g.MissedBehind (n :: path) k f
  := by
  constructor
  · rintro ⟨route, m, v, hf, hroute, hnodup, h⟩
    cases hroute with
    | refl =>
        left
        use v, hf
        simpa [observations] using h
    | @step _ k _ p route hp hroute =>
        right
        use p, k, hp, route, m, v, hf, hroute
        constructor
        · simpa using hnodup
        · simpa using h
  · rintro (⟨v, hf, h⟩ | ⟨p, k, hp, route, m, v, hf, hroute, hnodup, h⟩)
    · use [], n, v, hf, Leads.refl n
      constructor
      · simpa using List.nodup_reverse.mpr hpath
      · simpa [observations] using h
    · use ⟨n, p⟩ :: route, m, v, hf, Leads.step hp hroute
      constructor
      · simpa using hnodup
      · simpa using h

end FlowGraph

namespace Assignment

open FlowGraph

variable {g : FlowGraph} {path : List Node} {scopes : List Scope} {n : Node}

theorem exploreExit_eq
    {p : Exit} {m : Node} (hp : (g.content n).target? p = some m) :
  exploreExit g path scopes n p = explore g path (behind scopes p) m
  := by
  rw [exploreExit, target_eq_ok_iff.mpr hp]

theorem tracks_behind
    {es : List Observation} (h : g.Tracks es scopes) (p : Exit) :
  g.Tracks es (behind scopes p)
  := by
  cases p with
  | next => apply h
  | _ => apply h.opened

/-- If no exit fails, a node finds what it reads without a value and what its exits find. -/
theorem explore_eq_of_failure
    (hn : n ∉ path)
    (h : ∀ p ∈ g.exits n, (exploreExit g (n :: path)
      (afterAll (opened scopes) (g.content n).observations) n p).failure = none) :
  explore g path scopes n
    = ⟨unassignedAll (opened scopes) (g.content n).observations
        ++ (g.exits n).flatMap fun p => (exploreExit g (n :: path)
          (afterAll (opened scopes) (g.content n).observations) n p).findings, none⟩
  := by
  have hall : ∀ r ∈ (g.exits n).map (exploreExit g (n :: path)
      (afterAll (opened scopes) (g.content n).observations) n), r.failure = none := by
    intro r hr
    obtain ⟨p, hp, rfl⟩ := List.mem_map.mp hr
    apply h p hp
  rw [explore_of_not_mem hn, Report.andThen, Report.all_eq hall, List.flatMap_map]

/-- Where every slot is set, the check does not fail. -/
theorem failure_explore
    (hwired : g.WiredFrom n) :
  (explore g path scopes n).failure = none
  := by
  induction hsize : g.unvisited path using Nat.strongRecOn generalizing n path scopes with
  | ind size ih =>
      by_cases hn : n ∈ path
      · rw [explore_of_mem hn]
        rfl
      · rw [explore_eq_of_failure hn]
        intro p hp
        obtain ⟨m, hm⟩ := hwired n Relation.ReflTransGen.refl p hp
        have hlt := unvisited_cons_lt (mem_nodes_of_mem_exits hp) hn
        rw [exploreExit_eq hm]
        apply ih _ (hsize ▸ hlt) (hwired.of_target? hm) rfl

/-- Where every slot is set and no variable is declared twice, the check finds what simple routes
off the path read without a value. -/
theorem mem_explore_iff
    (hwired : g.WiredFrom n) (honce : g.DeclaresOnce) (hpath : path.Nodup)
    (htracks : g.Tracks (g.trace path) scopes) (f : Finding) :
  f ∈ (explore g path scopes n).findings ↔ g.MissedBehind path n f
  := by
  induction hsize : g.unvisited path using Nat.strongRecOn generalizing n path scopes with
  | ind size ih =>
      by_cases hn : n ∈ path
      · rw [explore_of_mem hn]
        constructor
        · intro h
          contradiction
        · intro h
          exact absurd hn h.not_mem
      · have hcons : (n :: path).Nodup := List.nodup_cons.mpr ⟨hn, hpath⟩
        have hsaid := honce.nodup_said hcons
        rw [trace_cons] at hsaid
        have hhere := htracks.opened.mem_unassignedAll hsaid f
        have hlater := htracks.opened.afterAll hsaid
        rw [← trace_cons] at hlater
        have hfailure : ∀ p ∈ g.exits n, (exploreExit g (n :: path)
            (afterAll (opened scopes) (g.content n).observations) n p).failure = none := by
          intro p hp
          obtain ⟨m, hm⟩ := hwired n Relation.ReflTransGen.refl p hp
          rw [exploreExit_eq hm]
          apply failure_explore (hwired.of_target? hm)
        have hexit : ∀ {p m}, (g.content n).target? p = some m →
            (f ∈ (exploreExit g (n :: path)
                (afterAll (opened scopes) (g.content n).observations) n p).findings
              ↔ g.MissedBehind (n :: path) m f) := by
          intro p m hm
          have hlt := unvisited_cons_lt (mem_nodes_of_target? hm) hn
          rw [exploreExit_eq hm]
          apply ih _ (hsize ▸ hlt) (hwired.of_target? hm) hcons (tracks_behind hlater p) rfl
        rw [explore_eq_of_failure hn hfailure, missedBehind_iff hcons, List.mem_append, hhere,
          List.mem_flatMap]
        apply or_congr_right
        constructor
        · intro ⟨p, hp, hf⟩
          obtain ⟨m, hm⟩ := hwired n Relation.ReflTransGen.refl p hp
          exact ⟨p, m, hm, (hexit hm).mp hf⟩
        · intro ⟨p, m, hm, hf⟩
          use p, mem_exits_of_target? hm
          apply (hexit hm).mpr hf

end Assignment

namespace FlowGraph

variable {g : FlowGraph}

/-- Where every slot which can be reached is set and no variable is declared twice, the check finds
exactly the names of the variables which some run from the start reads without a value. -/
theorem unassignedReads_exact
    (hwired : g.Wired) (honce : g.DeclaresOnce) :
  ∃ findings, g.unassignedReads = .ok findings
    ∧ (∀ name, Finding.unassigned name ∈ findings ↔ ∃ v, v.name = name ∧ g.ReadsUnassigned v)
    ∧ (findings = [] ↔ ∀ v, ¬ g.ReadsUnassigned v)
  := by
  have hfound : ∀ name, Finding.unassigned name ∈ (Assignment.report g).findings
      ↔ ∃ v, v.name = name ∧ g.ReadsUnassigned v := by
    intro name
    rw [Assignment.report, Assignment.mem_explore_iff hwired honce List.nodup_nil
      g.tracks_ofParameters]
    simp only [honce.readsUnassigned_iff]
    constructor
    · intro ⟨route, m, v, hf, hroute, hnodup, h⟩
      exact ⟨v, (Finding.unassigned.inj hf).symm, route, m, hroute, hnodup, h⟩
    · rintro ⟨v, rfl, route, m, hroute, hnodup, h⟩
      exact ⟨route, m, v, rfl, hroute, hnodup, h⟩
  use (Assignment.report g).findings
  constructor
  · rw [unassignedReads_eq, Assignment.report, Assignment.failure_explore hwired]
  · use hfound
    rw [List.eq_nil_iff_forall_not_mem]
    constructor
    · intro h v hv
      apply h (.unassigned v.name)
      apply (hfound v.name).mpr ⟨v, rfl, hv⟩
    · intro h ⟨name⟩ hf
      obtain ⟨v, -, hv⟩ := (hfound name).mp hf
      apply h v hv

instance (g : FlowGraph) : Decidable g.DeclaresOnce :=
  inferInstanceAs (Decidable g.declared.Nodup)

/-- The graph of a method with a parameter `x` which declares `y` and then has a loop: the condition
reads `x` and `y`, and the body gives a value to `y`. -/
def assignedInLoop : FlowGraph where
  parameters := [⟨⟨0, "x"⟩, .int⟩]
  entry := some (.inner 0)
  cells := #[
    .block [.declare .int ⟨1, "y"⟩] (some (.inner 1)),
    .jump (.binary .lt (.read ⟨0, "x"⟩) (.read ⟨1, "y"⟩)) (some (.inner 2)) (some .stop),
    .block [.assign ⟨1, "y"⟩ (.int 1)] (some (.inner 1))]

/-- The check of this graph is exact. -/
theorem unassignedReads_exact_assignedInLoop :
  assignedInLoop.Wired ∧ assignedInLoop.DeclaresOnce
    ∧ ∃ findings, assignedInLoop.unassignedReads = .ok findings
      ∧ (∀ name, Finding.unassigned name ∈ findings
        ↔ ∃ v, v.name = name ∧ assignedInLoop.ReadsUnassigned v)
      ∧ (findings = [] ↔ ∀ v, ¬ assignedInLoop.ReadsUnassigned v)
  := by
  have hwired : assignedInLoop.Wired := by
    apply wired_of_nodes
    decide
  have honce : assignedInLoop.DeclaresOnce := by decide
  exact ⟨hwired, honce, unassignedReads_exact hwired honce⟩

end FlowGraph

end MethodFlow
