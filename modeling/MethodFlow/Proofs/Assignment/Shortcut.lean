import MethodFlow.Proofs.Assignment.Exploration
import MethodFlow.Proofs.Bypass.Meaning

/-!
# Definite assignment and shortcuts past empty blocks

The check of definite assignment reports the same of a graph and of a shortcut past its empty blocks
(`Assignment.report_shortcut`), although it refuses nodes by the path which led to them and empty
blocks are on the path of the one graph and not of the other.  Whenever an empty block is refused,
the node behind it is on the path too, so nothing is found in either graph.
-/

namespace MethodFlow

namespace Assignment

open FlowGraph (Settled)

variable {g g' : FlowGraph} {n n' m : Node} {path path' : List Node}
  {scopes scopes' : List Scope}

/-! ### Scopes which allow the same reads -/

/-- The innermost scopes are the same, and the same variables may be read. -/
structure Similar (scopes scopes' : List Scope) : Prop where
  headD : scopes.headD [] = scopes'.headD []
  allows : ∀ v, Scope.allows scopes v = Scope.allows scopes' v

theorem Similar.refl
    (scopes : List Scope) :
  Similar scopes scopes
  := ⟨rfl, fun _ => rfl⟩

@[simp]
theorem allows_opened
    (scopes : List Scope) (v : Variable) :
  Scope.allows (opened scopes) v = Scope.allows scopes v
  := by
  cases scopes <;> simp [opened, Scope.allows, Scope.hasValue, Scope.state?]

theorem Similar.opened_left
    (h : Similar scopes scopes') :
  Similar (opened scopes) scopes'
  := by
  constructor
  · apply h.headD
  · intro v
    rw [allows_opened, h.allows]

theorem afterAll_cons
    (sc : Scope) (os : List Observation) :
  ∃ sc', ∀ scopes, afterAll (sc :: scopes) os = sc' :: scopes
  := by
  induction os generalizing sc with
  | nil => exact ⟨sc, fun _ => rfl⟩
  | cons o os ih =>
      cases o with
      | act a => apply ih (sc.run a)
      | test c => apply ih sc

/-- The same is found in similar scopes while the same happens. -/
theorem unassignedAll_congr
    (sc : Scope) (h : ∀ v, Scope.allows scopes v = Scope.allows scopes' v)
    (os : List Observation) :
  unassignedAll (sc :: scopes) os = unassignedAll (sc :: scopes') os
  := by
  induction os generalizing sc with
  | nil => rfl
  | cons o os ih =>
      have hfirst : unassigned (sc :: scopes) o = unassigned (sc :: scopes') o := by
        have hallows : ∀ v, Scope.allows (sc :: scopes) v = Scope.allows (sc :: scopes') v := by
          intro v
          change (sc.hasValue v || Scope.allows scopes v)
            = (sc.hasValue v || Scope.allows scopes' v)
          rw [h]
        simp only [unassigned, hallows]
      rw [unassignedAll, unassignedAll, hfirst]
      cases o with
      | act a => rw [after, after, List.modifyHead_cons, List.modifyHead_cons, ih]
      | test c => rw [after, after, ih]

theorem Similar.unassignedAll_opened
    (h : Similar scopes scopes') (os : List Observation) :
  unassignedAll (opened scopes) os = unassignedAll (opened scopes') os
  := by
  rw [opened, opened, h.headD]
  apply unassignedAll_congr _ h.allows

/-- Behind a node, similar scopes are similar still. -/
theorem Similar.behind
    (h : Similar scopes scopes') (os : List Observation) (p : Exit) :
  Similar (behind (afterAll (opened scopes) os) p) (behind (afterAll (opened scopes') os) p)
  := by
  obtain ⟨sc, hsc⟩ := afterAll_cons (scopes'.headD []) os
  have hinside : Similar (afterAll (opened scopes) os) (afterAll (opened scopes') os) := by
    rw [opened, opened, h.headD, hsc, hsc]
    constructor
    · rfl
    · intro v
      change (sc.hasValue v || Scope.allows scopes v) = (sc.hasValue v || Scope.allows scopes' v)
      rw [h.allows]
  cases p with
  | next => apply hinside
  | _ =>
      constructor
      · apply hinside.headD
      · intro v
        simp only [Assignment.behind, allows_opened, hinside.allows]

/-! ### Empty blocks -/

@[simp]
theorem Report.andThen_clear
    (r : Report) :
  r.andThen .clear = r
  := by
  obtain ⟨findings, failure⟩ := r
  cases failure <;> simp [andThen, clear]

/-- An empty block which is not on the path is stepped over. -/
theorem explore_of_skips
    (h : n ∉ path) (hskip : g.Skips n m) :
  explore g path scopes n = explore g (n :: path) (opened scopes) m
  := by
  have htarget : g.target ⟨n, .next⟩ = .ok m := FlowGraph.target_eq_ok_iff.mpr hskip.2
  rw [explore_of_not_mem h, FlowGraph.exits_of_isEmptyBlock hskip.1,
    Content.observations_of_isEmptyBlock hskip.1]
  change Report.andThen .clear ((exploreExit g (n :: path) (opened scopes) n .next).andThen .clear)
    = _
  rw [Report.andThen_clear, exploreExit, htarget]
  rfl

/-- Nothing is found where every way leads over empty blocks back to the path. -/
theorem explore_of_trapped
    (trap : Node → Prop) (htrap : ∀ k, trap k → k ∈ path ∨ ∃ m, g.Skips k m ∧ trap m)
    (hn : trap n) :
  explore g path scopes n = .clear
  := by
  induction hsize : g.unvisited path using Nat.strongRecOn generalizing path scopes n with
  | ind size ih =>
      by_cases hmem : n ∈ path
      · apply explore_of_mem hmem
      · obtain hpath | ⟨m, hskip, hm⟩ := htrap n hn
        · contradiction
        · rw [explore_of_skips hmem hskip]
          apply ih (g.unvisited (n :: path)) _ _ hm rfl
          · rw [← hsize]
            apply FlowGraph.unvisited_cons_lt (FlowGraph.mem_nodes_of_target? hskip.2) hmem
          · intro k hk
            obtain hpath | hskips := htrap k hk
            · apply Or.inl (List.mem_cons_of_mem n hpath)
            · apply Or.inr hskips

/-! ### The paths of a graph and of a shortcut -/

/-- The paths hold the same nodes, empty blocks apart. -/
def SamePath (g : FlowGraph) (path path' : List Node) : Prop :=
  ∀ k, ¬ (g.content k).isEmptyBlock → (k ∈ path ↔ k ∈ path')

/-- Where one of two matching paths comes back to one of its nodes, nothing is found on the
other. -/
theorem explore_of_settled
    (h : Settled g path n) (hn : n ∈ path) (hslide : g.Slides n m)
    (hskips : ∀ k j, g.Skips k j → g'.Skips k j)
    (hsame : ∀ k, ¬ (g.content k).isEmptyBlock → k ∈ path → k ∈ path') :
  explore g' path' scopes m = .clear
  := by
  apply explore_of_trapped (· ∈ path)
  · intro k hk
    by_cases hempty : (g.content k).isEmptyBlock
    · obtain ⟨j, hskip, hj⟩ := h.exists_skips hn hk hempty
      apply Or.inr ⟨j, hskips k j hskip, hj⟩
    · apply Or.inl (hsame k hempty hk)
  · apply h.mem_of_slides hn hslide

/-- At an exit, the same is found in a graph and in a shortcut if the same is found behind it. -/
theorem exploreExit_shortcut
    (h : g.Shortcut g') {p : Exit} (hp : p ∈ g.exits n)
    (hbehind : ∀ m m', (g.content n).target? p = some m → (g'.content n).target? p = some m' →
      explore g path (behind scopes p) m = explore g' path' (behind scopes' p) m') :
  exploreExit g path scopes n p = exploreExit g' path' scopes' n p
  := by
  unfold exploreExit
  cases htarget : (g.content n).target? p with
  | some m =>
      obtain ⟨m', htarget', -⟩ := h.exists_target? htarget
      have hok : g.target ⟨n, p⟩ = .ok m := FlowGraph.target_eq_ok_iff.mpr htarget
      have hok' : g'.target ⟨n, p⟩ = .ok m' := FlowGraph.target_eq_ok_iff.mpr htarget'
      rw [hok, hok']
      apply hbehind m m' htarget htarget'
  | none =>
      have hp' : p ∈ g'.exits n := by
        rw [h.exits]
        apply hp
      rw [FlowGraph.target_of_unset hp htarget,
        FlowGraph.target_of_unset hp' (h.target?_eq_none htarget), h.kind]

/-- At a node which is on neither path, the same is found in a graph and in a shortcut if the same
is found behind its exits. -/
theorem explore_eq_of_entered
    (h : g.Shortcut g') (hscopes : Similar scopes scopes') (hmem : n ∉ path) (hmem' : n ∉ path')
    (hbehind : ∀ p m m', (g.content n).target? p = some m → (g'.content n).target? p = some m' →
      explore g (n :: path) (behind (afterAll (opened scopes) (g.content n).observations) p) m
        = explore g' (n :: path')
          (behind (afterAll (opened scopes') (g.content n).observations) p) m') :
  explore g path scopes n = explore g' path' scopes' n
  := by
  rw [explore_of_not_mem hmem, explore_of_not_mem hmem', h.observations, h.exits,
    hscopes.unassignedAll_opened]
  congr 2
  apply List.map_congr_left
  intro p hp
  apply exploreExit_shortcut h hp
  apply hbehind

/-- From nodes of which the first slides to the second, the same is found in a graph and in a
shortcut. -/
theorem explore_eq_of_slides
    (h : g.Shortcut g') (hslide : g.Slides n n') (hpath : SamePath g path path')
    (hsettled : Settled g path n) (hsettled' : Settled g path' n')
    (hscopes : Similar scopes scopes') :
  explore g path scopes n = explore g' path' scopes' n'
  := by
  induction hsize : g.unvisited path using Nat.strongRecOn
    generalizing path path' scopes scopes' n n' with
  | ind size ih =>
      by_cases hmem : n ∈ path
      · rw [explore_of_mem hmem, explore_of_settled hsettled hmem hslide]
        · exact fun k j => h.skips_iff.mpr
        · exact fun k hk => (hpath k hk).mp
      · have hlt : ∀ {p m}, (g.content n).target? p = some m →
            g.unvisited (n :: path) < size := by
          intro p m hp
          rw [← hsize]
          apply FlowGraph.unvisited_cons_lt _ hmem
          apply FlowGraph.mem_nodes_of_target? hp
        by_cases heq : n = n'
        · subst heq
          by_cases hmem' : n ∈ path'
          · -- only an empty block is on the path of one graph alone
            rw [explore_of_mem hmem', explore_of_settled hsettled' hmem' hslide]
            · exact fun _ _ => id
            · exact fun k hk => (hpath k hk).mpr
          · apply explore_eq_of_entered h hscopes hmem hmem'
            intro p m m' htarget htarget'
            apply ih _ (hlt htarget)
            · apply h.slides_of_target? htarget htarget'
            · intro k hk
              simp only [List.mem_cons, hpath k hk]
            · apply hsettled.cons
              intro hempty
              apply FlowGraph.skips_of_target? hempty htarget
            · apply hsettled'.cons
              intro hempty
              rw [h.emptyBlock n p hempty] at htarget'
              apply FlowGraph.skips_of_target? hempty htarget'
            · apply hscopes.behind
            · rfl
        · -- the shortcut is ahead: the graph steps over an empty block
          obtain ⟨k, hskip, hslide⟩ := hslide.exists_skips_of_ne heq
          rw [explore_of_skips hmem hskip]
          apply ih _ (hlt hskip.2) hslide
          · intro j hj
            rw [List.mem_cons, ← hpath j hj, or_iff_right]
            rintro rfl
            apply hj hskip.1
          · apply hsettled.cons
            intro _
            apply hskip
          · apply hsettled'
          · apply hscopes.opened_left
          · rfl

/-- The check reports the same of a graph and of a shortcut. -/
theorem report_shortcut
    (h : g.Shortcut g') :
  report g' = report g
  := by
  unfold report
  rw [h.parameters]
  symm
  apply explore_eq_of_slides h Relation.ReflTransGen.refl
  · intro k _
    rfl
  · intro k hk
    contradiction
  · intro k hk
    contradiction
  · apply Similar.refl

end Assignment

namespace FlowGraph

/-- The check finds the same in a shortcut, or fails in the same way. -/
theorem Shortcut.unassignedReads
    {g g' : FlowGraph} (h : g.Shortcut g') :
  g'.unassignedReads = g.unassignedReads
  := by
  rw [unassignedReads_eq, unassignedReads_eq, Assignment.report_shortcut h]

/-- Whether bypassing the empty blocks of a graph comes to its end or fails, the check of definite
assignment finds the same afterwards as before, in the same order, or fails with the same
failure. -/
theorem unassignedReads_bypass
    (g : FlowGraph) :
  g.bypass.graph.unassignedReads = g.unassignedReads
  := by
  rw [unassignedReads_eq, unassignedReads_eq, Assignment.report_shortcut g.shortcut_bypass]

end FlowGraph

end MethodFlow
