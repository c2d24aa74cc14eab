import Mathlib.Data.Finset.Max
import Mathlib.Data.Finset.Dedup
import MethodFlow.Proofs.Graph.Dominance
import MethodFlow.Proofs.Walk.Paths

/-!
# Graphs whose circles are loops

A `Loop` is a range of inner nodes, the first of which is its head.  In a graph with certain loops,
`FlowGraph.Looped`, slots lead ahead, up to those which lead back to the head of the loop they are
in, and a loop is entered and left through its head only.  So every circle goes through the head of
a loop, which dominates it (`Looped.exists_head`), a walk along paths comes back only to heads
(`Looped.mem_refusals`), and the stop can be reached from everywhere (`Looped.reaches_stop`).
-/

namespace MethodFlow

/-- A loop among the inner nodes of a graph. -/
structure Loop where
  /-- The condition which is tested before each round. -/
  test : Expr
  /-- How many inner nodes were made before the loop.  The next one is its head. -/
  made : Nat
  /-- How many inner nodes were made when the loop was complete. -/
  complete : Nat

namespace Loop

/-- The node at which the condition is tested. -/
def head (l : Loop) : Node :=
  .inner l.made

/-- The node is one of those which were made for the rounds of the loop. -/
def Contains (l : Loop) (n : Node) : Prop :=
  ∃ i, n = .inner i ∧ l.made < i ∧ i < l.complete

end Loop

namespace FlowGraph

variable {g : FlowGraph} {loops : Loop → Prop} {l : Loop} {P : Node → Prop} {n m k : Node}
  {route : List Slot} {s : Slot}

/-- Slots lead ahead, up to those which lead back from the blocks of a loop to its head.  The head
is a jump, through which the loop is entered and left. -/
structure Looped (g : FlowGraph) (loops : Loop → Prop) : Prop where
  slot : ∀ (s : Slot) m, (g.content s.node).target? s.exit = some m →
    m = .stop ∨ s.node.index < m.index
      ∨ ∃ l, loops l ∧ g.kind s.node = .block ∧ l.Contains s.node ∧ m = l.head
  jump : ∀ l, loops l → g.kind l.head = .jump
  entry : ∀ l, loops l → ∀ (s : Slot) m, (g.content s.node).target? s.exit = some m →
    l.Contains m → l.Contains s.node ∨ s = ⟨l.head, .ifTrue⟩
  leaves : ∀ l, loops l → ∀ m, (g.content l.head).target? .ifFalse = some m →
    m = .stop ∨ ∀ n, l.Contains n → n.index < m.index

/-! ### Circles -/

/-- A route along nodes of which something holds is a route within them. -/
theorem Leads.reachesIn
    (h : g.Leads n route m) (hP : ∀ k ∈ route.map Slot.node ++ [m], P k) :
  g.ReachesIn P n m
  := by
  induction h with
  | refl n =>
      apply ReachesIn.refl
      apply hP
      simp
  | @step n k m p route hp h ih =>
      apply ReachesIn.step _ ⟨p, hp⟩
      · apply ih
        intro j hj
        apply hP
        apply List.mem_cons_of_mem _ hj
      · apply hP
        apply List.mem_cons_self

theorem ReachesIn.right
    (h : g.ReachesIn P n m) :
  P m
  := by
  induction h with
  | refl hn => apply hn
  | step _ _ _ ih => apply ih

theorem dominates_self
    (g : FlowGraph) (n : Node) :
  g.Dominates n n
  := by
  intro h
  apply h.right rfl

/-- A node which dominates another one dominates the nodes which lead there, unless it is the other
node itself. -/
theorem Dominates.of_edge
    {d : Node} (h : g.Dominates d m) (hedge : g.Edge n m) (hm : m ≠ d) :
  g.Dominates d n
  := by
  intro hn
  apply h
  apply hn.trans (ReachesIn.step hn.right hedge (ReachesIn.refl hm))

/-- The head of a loop dominates the loop. -/
theorem Looped.dominates
    (h : g.Looped loops) (hl : loops l) (hn : l.Contains n) :
  g.Dominates l.head n
  := by
  have hout : ∀ {k m}, g.ReachesIn (· ≠ l.head) k m → ¬ l.Contains k → ¬ l.Contains m := by
    intro k m hreaches
    induction hreaches with
    | refl _ => exact id
    | @step k j m hk hedge _ ih =>
        intro hnot
        apply ih
        intro hj
        obtain ⟨p, hp⟩ := hedge
        obtain hk' | heq := h.entry l hl ⟨k, p⟩ j hp hj
        · apply hnot hk'
        · apply hk (Slot.mk.inj heq).1
  intro hreaches
  apply hout hreaches _ hn
  rintro ⟨i, hi, -⟩
  contradiction

/-- What leads back leads to the head of a loop which dominates it. -/
theorem Looped.exists_of_back
    (h : g.Looped loops) (hm : (g.content s.node).target? s.exit = some m) (hstop : m ≠ .stop)
    (hle : m.index ≤ s.node.index) :
  ∃ l, loops l ∧ m = l.head ∧ g.Dominates l.head s.node
  := by
  obtain heq | hlt | ⟨l, hl, -, hcontains, rfl⟩ := h.slot s m hm
  · contradiction
  · omega
  · exact ⟨l, hl, rfl, h.dominates hl hcontains⟩

/-- Every circle goes through the head of a loop, which dominates all of its nodes. -/
theorem Looped.exists_head
    (h : g.Looped loops) (hroute : g.Leads n route n) (hne : route ≠ []) :
  ∃ l, loops l ∧ l.head ∈ route.map Slot.node
    ∧ ∀ k ∈ route.map Slot.node, g.Dominates l.head k
  := by
  -- the node of the circle which was made first can only be entered by going back
  obtain ⟨first, hfirst, hle⟩ := (route.map Slot.node).toFinset.exists_min_image Node.index
    (by simpa [List.toFinset_nonempty_iff] using hne)
  simp only [List.mem_toFinset] at hfirst hle
  obtain ⟨before, after, rfl, hbefore, hafter⟩ :=
    hroute.exists_split (List.mem_append_left _ hfirst)
  have hcircle := hafter.trans hbefore
  have hmem : ∀ s, s ∈ after ++ before ↔ s ∈ before ++ after := by
    intro s
    simp [or_comm]
  have hstop : first ≠ .stop := by
    rintro rfl
    cases hcircle' : after ++ before with
    | nil => simp_all
    | cons s rest =>
        rw [hcircle'] at hcircle
        cases hcircle
        contradiction
  have hback : ∀ s ∈ after ++ before, (g.content s.node).target? s.exit = some first →
      ∃ l, loops l ∧ first = l.head ∧ g.Dominates l.head s.node := by
    intro s hs htarget
    apply h.exists_of_back htarget hstop
    apply hle
    apply List.mem_map_of_mem ((hmem s).mp hs)
  have hdominates : ∀ s ∈ after ++ before, g.Dominates first s.node := by
    apply (hcircle.forall_of_last (g.dominates_self first) _).2
    intro s hs k hk hdominates
    by_cases heq : k = first
    · subst heq
      obtain ⟨l, -, rfl, hl⟩ := hback s hs hk
      apply hl
    · apply hdominates.of_edge ⟨s.exit, hk⟩ heq
  have hne' : after ++ before ≠ [] := by simpa [and_comm] using hne
  obtain ⟨rest, last, hlast⟩ := (List.eq_nil_or_concat (after ++ before)).resolve_left hne'
  rw [hlast, List.concat_eq_append] at hcircle
  obtain ⟨l, hl, rfl, -⟩ := hback last (by simp [hlast]) (leads_concat_iff.mp hcircle).2
  use l, hl, hfirst
  intro k hk
  obtain ⟨s, hs, rfl⟩ := List.mem_map.mp hk
  apply hdominates s ((hmem s).mpr hs)

/-- A walk along paths comes back only to heads of loops. -/
theorem Looped.mem_refusals
    (h : g.Looped loops) (hwired : g.Wired) (hn : n ∈ (g.tour MarkedPath .start).refusals) :
  ∃ l, loops l ∧ n = l.head
  := by
  have hreturns : (.ok n : Except Failure Node) ∈ (g.tour MarkedPath .start).refusals.map .ok :=
    List.mem_map_of_mem hn
  rw [WiredFrom.refusals_tour hwired] at hreturns
  obtain ⟨⟨r, s⟩, hstep, htarget⟩ := List.mem_map.mp hreturns
  obtain ⟨⟨hleads, hnodup⟩, hs, m, hm, hmtarget⟩ := mem_returns_iff.mp hstep
  obtain rfl : n = m := Except.ok.inj (htarget.symm.trans hmtarget)
  obtain ⟨p, -, rfl⟩ := List.mem_map.mp hs
  obtain ⟨before, after, hslots, hbefore, hafter⟩ := hleads.exists_split hm
  have hcircle : g.Leads n (after ++ [⟨r.last, p⟩]) n := by
    apply leads_concat_iff.mpr ⟨hafter, target_eq_ok_iff.mp htarget⟩
  have hne : after ++ [⟨r.last, p⟩] ≠ [] := by simp
  obtain ⟨l, hl, hhead, hdominates⟩ := h.exists_head hcircle hne
  use l, hl
  by_contra hother
  -- the route to the node does not come to the head, which comes later
  have hlater : l.head ∈ after.map Slot.node ++ [r.last] := by simpa using hhead
  rw [Route.nodes, Route.departures, hslots, List.map_append, List.append_assoc,
    List.nodup_append] at hnodup
  have hnmem : n ∈ (after ++ [(⟨r.last, p⟩ : Slot)]).map Slot.node := by
    cases hafter <;> simp
  apply hdominates n hnmem
  apply hbefore.reachesIn
  intro k hk
  obtain hk | hk := List.mem_append.mp hk
  · apply hnodup.2.2 k hk _ hlater
  · rw [List.mem_singleton.mp hk]
    apply hother

/-! ### The way to the stop -/

/-- A node of a graph which is not the stop has an exit. -/
theorem exists_mem_exits
    (hn : n ∈ g.nodes) (hstop : n ≠ .stop) :
  ∃ p, p ∈ g.exits n
  := by
  cases n with
  | start => exact ⟨.next, List.mem_singleton_self _⟩
  | stop => contradiction
  | inner i =>
      rw [inner_mem_nodes_iff] at hn
      rw [exits, kind, content, Array.getElem?_eq_getElem hn]
      cases g.cells[i] with
      | block _ _ => exact ⟨.next, List.mem_singleton_self _⟩
      | jump _ _ _ => exact ⟨.ifTrue, List.mem_cons_self⟩

/-- The nodes of a graph come before as many nodes as it has. -/
theorem index_lt_size
    (hn : n ∈ g.nodes) :
  n.index < g.size
  := by
  cases n with
  | inner i =>
      rw [inner_mem_nodes_iff] at hn
      simp only [Node.index, size]
      omega
  | _ => simp [Node.index, size]

/-- From a node of a graph whose slots are all set, either the stop or a later node can be
reached. -/
theorem Looped.reaches_later
    (h : g.Looped loops)
    (htotal : ∀ n ∈ g.nodes, ∀ p ∈ g.exits n, ∃ m ∈ g.nodes, (g.content n).target? p = some m)
    (hn : n ∈ g.nodes) (hstop : n ≠ .stop) :
  ∃ m ∈ g.nodes, g.Reaches n m ∧ (m = .stop ∨ n.index < m.index)
  := by
  obtain ⟨p, hp⟩ := exists_mem_exits hn hstop
  obtain ⟨m, hm, htarget⟩ := htotal n hn p hp
  have hedge : g.Reaches n m := Relation.ReflTransGen.single ⟨p, htarget⟩
  obtain heq | hlt | ⟨l, hl, -, hcontains, rfl⟩ := h.slot ⟨n, p⟩ m htarget
  · exact ⟨m, hm, hedge, Or.inl heq⟩
  · exact ⟨m, hm, hedge, Or.inr hlt⟩
  · -- a block in a loop leads back to the head, which leads out of the loop
    have hfalse : Exit.ifFalse ∈ g.exits l.head := by
      rw [exits, h.jump l hl]
      simp [Kind.exits]
    obtain ⟨k, hk, hleaves⟩ := htotal l.head hm .ifFalse hfalse
    use k, hk, hedge.tail ⟨.ifFalse, hleaves⟩
    apply (h.leaves l hl k hleaves).imp_right
    exact fun hlater => hlater n hcontains

/-- If every slot of a graph leads to a node of it, the stop can be reached from every node. -/
theorem Looped.reaches_stop
    (h : g.Looped loops)
    (htotal : ∀ n ∈ g.nodes, ∀ p ∈ g.exits n, ∃ m ∈ g.nodes, (g.content n).target? p = some m)
    (hn : n ∈ g.nodes) :
  g.Reaches n .stop
  := by
  induction hsize : g.size - n.index using Nat.strongRecOn generalizing n with
  | ind size ih =>
      by_cases hstop : n = .stop
      · rw [hstop]
        apply Relation.ReflTransGen.refl
      · obtain ⟨m, hm, hreaches, rfl | hlt⟩ := h.reaches_later htotal hn hstop
        · apply hreaches
        · have hindex := index_lt_size hm
          apply hreaches.trans (ih _ _ hm rfl)
          omega

end FlowGraph

end MethodFlow
