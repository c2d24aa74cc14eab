import MethodFlow.Proofs.Walk.Tour

/-!
# Tours which enter each node once

A tour which remembers every node it entered meets exactly the nodes which can be reached.
`Tour.Account` says what such a tour has met while some nodes are still to be visited: the slots of
the nodes entered are set and lead to nodes entered or to be visited, and each of these slots stands
for one node met or to be met.  Refusing a node (`Account.refuse`) and entering one
(`Account.enter`) keep the account, so it holds for the whole tour, when no node is left to be
visited (`FlowGraph.tour_visits_once`).
-/

namespace MethodFlow

namespace Tour

open Walk

variable {g : FlowGraph} {first m : Node} {pending ms V : List Node} {meetings : List Meeting}
  {s : Progress Visited (Array Meeting)} {visit : Node → Walk Visited (Array Meeting) Unit}

/-- Every node refused was entered before. -/
def EntersFirst (meetings : List Meeting) : Prop :=
  ∀ before m, before ++ [⟨m, false⟩] <+: meetings → ⟨m, true⟩ ∈ before

/-- A node may be met next if it is entered, or was entered before. -/
theorem EntersFirst.concat
    (h : EntersFirst meetings) {met : Meeting}
    (hmet : met.entered = false → ⟨met.node, true⟩ ∈ meetings) :
  EntersFirst (meetings ++ [met])
  := by
  intro before m hbefore
  obtain heq | hbefore := List.prefix_concat_iff.mp hbefore
  · obtain ⟨rfl, rfl⟩ : before = meetings ∧ ⟨m, false⟩ = met := by simpa using heq
    apply hmet rfl
  · apply h before m hbefore

/-- What a tour which enters each node once has met when the nodes of `pending` are to be visited
next. -/
structure Account (g : FlowGraph) (first : Node) (s : Progress Visited (Array Meeting))
    (pending : List Node) : Prop where
  /-- The nodes recorded as entered are those on the trail. -/
  entered : (s.work.toList.filter Meeting.entered).map Meeting.node = s.trail.nodes
  nodup : s.trail.nodes.Nodup
  entersFirst : EntersFirst s.work.toList
  /-- One node is met for each slot of the nodes entered, besides the first node. -/
  count : s.work.toList.length + pending.length = 1 + (s.trail.nodes.flatMap g.slots).length
  first_mem : first ∈ s.trail.nodes ++ pending
  reaches : ∀ m ∈ s.trail.nodes ++ pending, g.Reaches first m
  closed : ∀ m ∈ s.trail.nodes, ∃ ms, g.successors m = .ok ms ∧ ms ⊆ s.trail.nodes ++ pending

/-- A tour starts with its first node to be visited. -/
theorem account_start
    (g : FlowGraph) (first : Node) :
  Account g first ⟨Trail.empty, #[]⟩ [first]
  where
  entered := rfl
  nodup := List.nodup_nil
  entersFirst before m h := by simp at h
  count := rfl
  first_mem := List.mem_cons_self
  reaches m hm := by
    obtain rfl := List.mem_singleton.mp hm
    apply Relation.ReflTransGen.refl
  closed m hm := by contradiction

/-- Refusing a node which was entered before keeps the account. -/
theorem Account.refuse
    (h : Account g first s (m :: pending)) (hm : m ∈ s.trail.nodes) :
  Account g first (meet ⟨m, false⟩ s) pending
  := by
  have hmet : ⟨m, true⟩ ∈ s.work.toList := by
    rw [← h.entered] at hm
    simp only [List.mem_map, List.mem_filter] at hm
    obtain ⟨⟨_, _⟩, ⟨hmet, rfl⟩, rfl⟩ := hm
    exact hmet
  have hsub : s.trail.nodes ++ m :: pending ⊆ s.trail.nodes ++ pending := by
    intro k hk
    simp only [List.mem_append, List.mem_cons] at hk ⊢
    obtain hk | rfl | hk := hk
    · exact Or.inl hk
    · exact Or.inl hm
    · exact Or.inr hk
  have hcount := h.count
  constructor
  case entered => simpa [meet] using h.entered
  case nodup => exact h.nodup
  case entersFirst => simpa [meet] using h.entersFirst.concat fun _ => hmet
  case count =>
    simp only [meet, Array.toList_push, List.length_append, List.length_cons,
      List.length_nil] at hcount ⊢
    omega
  case first_mem => exact hsub h.first_mem
  case reaches =>
    intro k hk
    apply h.reaches k
    exact (List.Sublist.append_left (List.sublist_cons_self m pending) _).subset hk
  case closed =>
    intro k hk
    obtain ⟨ms, hms, hknown⟩ := h.closed k hk
    exact ⟨ms, hms, List.Subset.trans hknown hsub⟩

/-- Entering a new node whose slots are set keeps the account, and its successors are to be visited
next. -/
theorem Account.enter
    (h : Account g first s (m :: pending)) (hm : m ∉ s.trail.nodes)
    (hms : g.successors m = .ok ms) :
  Account g first (meet ⟨m, true⟩ { s with trail := ⟨s.trail.nodes ++ [m]⟩ }) (ms ++ pending)
  := by
  have hreaches : g.Reaches first m := h.reaches m (by simp)
  have hslots : (g.slots m).length = ms.length := by
    rw [FlowGraph.slots, List.length_map]
    apply (FlowGraph.successors_eq_ok_iff.mp hms).length_eq
  have hsub : s.trail.nodes ++ m :: pending ⊆ s.trail.nodes ++ [m] ++ (ms ++ pending) := by
    intro k hk
    simp only [List.mem_append, List.mem_cons] at hk ⊢
    tauto
  have hcount := h.count
  constructor
  case entered => simp [meet, h.entered]
  case nodup => simpa [meet, List.nodup_append, List.forall_mem_ne'] using ⟨h.nodup, hm⟩
  case entersFirst =>
    have hconcat : EntersFirst (s.work.toList ++ [⟨m, true⟩]) := h.entersFirst.concat (by simp)
    simpa [meet] using hconcat
  case count =>
    simp only [meet, Array.toList_push, List.length_append, List.length_cons, List.length_nil,
      List.flatMap_append, List.flatMap_singleton, hslots] at hcount ⊢
    omega
  case first_mem => exact hsub h.first_mem
  case reaches =>
    intro k hk
    simp only [meet, List.mem_append, List.mem_singleton] at hk
    obtain (hk | rfl) | hk | hk := hk
    · apply h.reaches k (List.mem_append_left _ hk)
    · apply hreaches
    · apply hreaches.tail ((FlowGraph.mem_successors_iff hms).mp hk)
    · apply h.reaches k (List.mem_append_right _ (List.mem_cons_of_mem m hk))
  case closed =>
    intro k hk
    obtain hk | hk := List.mem_append.mp hk
    · obtain ⟨ms', hms', hknown⟩ := h.closed k hk
      exact ⟨ms', hms', List.Subset.trans hknown hsub⟩
    · obtain rfl := List.mem_singleton.mp hk
      exact ⟨ms, hms, fun j hj => List.mem_append_right _ (List.mem_append_left _ hj)⟩

/-- When nothing is left to be visited, the nodes entered are those which can be reached. -/
theorem Account.mem_iff
    (h : Account g first s []) :
  m ∈ s.trail.nodes ↔ g.Reaches first m
  := by
  have hreaches := h.reaches
  have hfirst := h.first_mem
  simp only [List.append_nil] at hreaches hfirst
  constructor
  · apply hreaches
  · intro hm
    apply FlowGraph.Reaches.mem_of_closed hm hfirst
    intro k hk j hedge
    obtain ⟨ms, hms, hknown⟩ := h.closed k hk
    rw [List.append_nil] at hknown
    exact hknown ((FlowGraph.mem_successors_iff hms).mpr hedge)

/-- When nothing is left to be visited, every slot which can be reached is set. -/
theorem Account.wiredFrom
    (h : Account g first s []) :
  g.WiredFrom first
  := by
  intro m hm p hp
  obtain ⟨ms, hms, -⟩ := h.closed m (h.mem_iff.mpr hm)
  exact FlowGraph.exists_successors_iff.mp ⟨ms, hms⟩ p hp

/-- A computation ends with an account of the visits which are left, and no node entered before was
forgotten, or it fails and some slot which can be reached is not set. -/
def Settles (g : FlowGraph) (first : Node) (V pending : List Node) :
    EStateM.Result Failure (Progress Visited (Array Meeting)) Unit → Prop
  | .ok _ s => V ⊆ s.trail.nodes ∧ Account g first s pending
  | .error _ _ => ¬ g.WiredFrom first

/-- Visiting the nodes to be visited next settles if each of the visits does. -/
theorem settles_forM
    (hvisit : ∀ m ∈ ms, ∀ s pending, V ⊆ s.trail.nodes → Account g first s (m :: pending) →
      Settles g first V pending (visit m s))
    (hV : V ⊆ s.trail.nodes) (h : Account g first s (ms ++ pending)) :
  Settles g first V pending (ms.forM visit s)
  := by
  induction ms generalizing s with
  | nil => exact ⟨hV, h⟩
  | cons m ms ih =>
      rw [List.forM_eq_forM, List.forM_cons, bind_apply]
      have hfirst := hvisit m List.mem_cons_self s (ms ++ pending) hV h
      generalize visit m s = result at hfirst
      cases result with
      | error e s' => exact hfirst
      | ok _ s' =>
          obtain ⟨hV', h'⟩ := hfirst
          apply ih (fun m hm => hvisit m (List.mem_cons_of_mem _ hm)) hV' h'

/-- A step settles if the visits behind it do. -/
theorem settles_step
    (hvisit : m ∉ s.trail.nodes → ∀ ms, g.successors m = .ok ms → ∀ k ∈ ms, ∀ s' pending,
      s.trail.nodes ++ [m] ⊆ s'.trail.nodes → Account g first s' (k :: pending) →
        Settles g first (s.trail.nodes ++ [m]) pending (visit k s'))
    (h : Account g first s (m :: pending)) :
  Settles g first s.trail.nodes pending (step g visit m s)
  := by
  by_cases hm : m ∈ s.trail.nodes
  · have hrefused : Trail.enter? m s.trail = none := if_pos hm
    rw [step_of_refused hrefused]
    exact ⟨List.Subset.refl _, h.refuse hm⟩
  · have hentered : Trail.enter? m s.trail = some ⟨s.trail.nodes ++ [m]⟩ := if_neg hm
    cases hms : g.successors m with
    | error e =>
        rw [step_of_unset hentered hms]
        intro hwired
        have hreaches : g.Reaches first m := h.reaches m (by simp)
        obtain ⟨ms, hms'⟩ := FlowGraph.exists_successors_iff.mpr (hwired m hreaches)
        rw [hms] at hms'
        contradiction
    | ok ms =>
        rw [step_of_entered hentered hms]
        have hvisits := settles_forM (hvisit hm ms hms) (List.Subset.refl _) (h.enter hm hms)
        generalize ms.forM visit _ = result at hvisits
        cases result with
        | error e s' => exact hvisits
        | ok _ s' => exact ⟨List.Subset.trans (List.subset_append_left _ _) hvisits.1, hvisits.2⟩

/-- Visits nested deeper than there are nodes left to be entered settle. -/
theorem settles_nest
    {depth : Nat} (hdepth : g.unvisited s.trail.nodes < depth)
    (h : Account g first s (m :: pending)) :
  Settles g first s.trail.nodes pending (nest (step g) depth m s)
  := by
  induction depth generalizing m s pending with
  | zero => exact absurd hdepth (Nat.not_lt_zero _)
  | succ depth ih =>
      apply settles_step _ h
      intro hm ms hms k hk s' pending' hV h'
      obtain ⟨p, hp⟩ := (FlowGraph.mem_successors_iff hms).mp hk
      have hlt := FlowGraph.unvisited_concat_lt (FlowGraph.mem_nodes_of_target? hp) hm
      have hle := FlowGraph.unvisited_le_of_subset (g := g) hV
      have hlater := ih (by omega) h'
      generalize nest (step g) depth k s' = result at hlater
      cases result with
      | error e s'' => exact hlater
      | ok _ s'' => exact ⟨List.Subset.trans hV hlater.1, hlater.2⟩

end Tour

namespace FlowGraph

/-- A tour which enters each node once succeeds exactly if every slot which can be reached is set.
Then it enters the nodes which can be reached, and meets one node for each of their slots besides
the first node. -/
theorem tour_visits_once
    (g : FlowGraph) (n : Node) :
  ((g.tour Visited n).outcome = .ok () ↔ g.WiredFrom n)
    ∧ (g.WiredFrom n →
      (g.tour Visited n).entries.Nodup
        ∧ (∀ m, m ∈ (g.tour Visited n).entries ↔ g.Reaches n m)
        ∧ (∀ m, (g.tour Visited n).trail.contains m = true ↔ g.Reaches n m)
        ∧ (g.tour Visited n).visits.length = 1 + ((g.tour Visited n).entries.flatMap g.slots).length
        ∧ (g.tour Visited n).refusals.length + (g.tour Visited n).entries.length
          = (g.tour Visited n).visits.length
        ∧ ∀ before m, before ++ [⟨m, false⟩] <+: (g.tour Visited n).meetings
          → ⟨m, true⟩ ∈ before)
  := by
  have hvisit : Tour.Settles g n [] [] (Walk.nest (Tour.step g) g.nesting n ⟨Trail.empty, #[]⟩) :=
    Tour.settles_nest (g.unvisited_lt_nesting []) (Tour.account_start g n)
  unfold tour
  generalize Walk.nest (Tour.step g) g.nesting n (⟨Trail.empty, #[]⟩ : Progress Visited _) = result
    at hvisit
  cases result with
  | error e s =>
      refine ⟨⟨?_, fun hwired => absurd hwired hvisit⟩, fun hwired => absurd hwired hvisit⟩
      intro h
      contradiction
  | ok _ s =>
      obtain ⟨-, haccount⟩ := hvisit
      refine ⟨⟨fun _ => haccount.wiredFrom, fun _ => rfl⟩, ?_⟩
      intro _
      have hentries : Tour.entries ⟨s.work.toList, s.trail, .ok ()⟩ = s.trail.nodes :=
        haccount.entered
      rw [hentries]
      refine ⟨haccount.nodup, fun m => haccount.mem_iff, ?_, ?_, ?_, haccount.entersFirst⟩
      · intro m
        rw [Visited.contains, List.contains_iff_mem, haccount.mem_iff]
      · rw [Tour.visits, List.length_map]
        exact haccount.count
      · have hsplit := List.length_eq_length_filter_add (l := s.work.toList) Meeting.entered
        rw [← hentries, Tour.entries, Tour.refusals, Tour.visits, List.length_map, List.length_map,
          List.length_map, hsplit, Nat.add_comm]

/-- The graph of a condition with one block on each branch, behind both of which the condition is
evaluated again or the method ends, and of a block which cannot be reached. -/
def loopBehindMerge : FlowGraph where
  parameters := []
  entry := some (.inner 0)
  cells := #[
    .jump (.bool true) (some (.inner 1)) (some (.inner 2)),
    .block [] (some (.inner 3)),
    .block [] (some (.inner 3)),
    .jump (.bool false) (some (.inner 0)) (some .stop),
    .block [] none]

/-- A tour of this graph which enters each node once enters six nodes and refuses the condition
after the loop and the node behind both branches. -/
theorem tour_visits_once_loopBehindMerge :
  loopBehindMerge.WiredFrom .start
    ∧ (∀ m, m ∈ (loopBehindMerge.tour Visited .start).entries ↔ loopBehindMerge.Reaches .start m)
    ∧ (loopBehindMerge.tour Visited .start).entries
      = [.start, .inner 0, .inner 1, .inner 3, .stop, .inner 2]
    ∧ (loopBehindMerge.tour Visited .start).refusals = [.inner 0, .inner 3]
  := by
  obtain ⟨houtcome, htour⟩ := tour_visits_once loopBehindMerge .start
  have hwired : loopBehindMerge.WiredFrom .start := houtcome.mp rfl
  exact ⟨hwired, (htour hwired).2.1, rfl, rfl⟩

end FlowGraph

end MethodFlow
