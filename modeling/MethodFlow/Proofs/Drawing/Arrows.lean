import Mathlib.Data.Set.Function
import Mathlib.Order.Interval.Set.Defs
import MethodFlow.Proofs.Drawing.Lines
import MethodFlow.Proofs.Drawing.Sheet
import MethodFlow.Proofs.Drawing.Statements
import MethodFlow.Proofs.Graph.Preorder

/-!
# The arrows of a drawing

A drawing enters the nodes in the order of the depth-first survey (`Drawing.Draws.survey`), draws an
arrow to each new node from a node entered before (`Drawing.Draws.exists_arrow_lt`), and draws
exactly one arrow for each slot (`Drawing.Draws.perm_arrows`).  So the set of its arrows is that of
the edges between the nodes which can be reached from the start, numbered in depth-first preorder,
and the lines of its text which join nodes are one for each slot of these nodes
(`FlowGraph.arrowSet_exact`).
-/

namespace MethodFlow

/-- The arrow drawn for a slot which is set, if the nodes are numbered by their places in a list. -/
def FlowGraph.arrow? (g : FlowGraph) (order : List Node) (s : Slot) : Option Drawing.Line :=
  ((g.content s.node).target? s.exit).map fun m =>
    .arrow (order.idxOf s.node) s.exit (order.idxOf m)

namespace Drawing

variable {g : FlowGraph} {V V₁ W : List Node} {i k : Nat} {n : Node} {ps : List Exit}
  {ls : List Line}

/-- Following exits enters the nodes which a survey of the slots visits. -/
theorem Draws.survey
    (h : Draws g V i n ps V₁ ls) :
  g.survey V (ps.map (⟨n, ·⟩)) = .ok V₁
  := by
  induction h with
  | nil => apply FlowGraph.survey_nil
  | seen hp hm _ ih =>
      rw [List.map_cons, FlowGraph.survey_of_set hp, FlowGraph.enter_of_mem hm]
      exact ih
  | fresh hp hm _ _ ihbehind ihrest =>
      rw [List.map_cons, FlowGraph.survey_of_set hp, FlowGraph.enter_of_not_mem hm,
        FlowGraph.slots, ihbehind]
      exact ihrest

/-- To every node which is entered, an arrow is drawn from a node entered before. -/
theorem Draws.exists_arrow_lt
    (h : Draws g V i n ps V₁ ls) (hi : i < V.length) (hk : V.length ≤ k) (hk₁ : k < V₁.length) :
  ∃ j p, j < k ∧ .arrow j p k ∈ ls
  := by
  induction h with
  | nil => exact absurd hk₁ (Nat.not_lt.mpr hk)
  | seen _ _ _ ih =>
      obtain ⟨j, p, hj, hmem⟩ := ih hi hk hk₁
      exact ⟨j, p, hj, List.mem_cons_of_mem _ hmem⟩
  | @fresh V V₁ V₂ i n m p ps ls₁ ls₂ hp hm hbehind hrest ihbehind ihrest =>
      have hV₁ := hbehind.isPrefix.length_le
      rw [List.length_append, List.length_singleton] at ihbehind hV₁
      obtain rfl | hlt := Nat.eq_or_lt_of_le hk
      · exact ⟨i, p, hi, by simp⟩
      · by_cases hlater : V₁.length ≤ k
        · obtain ⟨j, q, hj, hmem⟩ := ihrest (by omega) hlater hk₁
          exact ⟨j, q, hj, by simp [hmem]⟩
        · obtain ⟨j, q, hj, hmem⟩ := ihbehind (by omega) hlt (by omega)
          exact ⟨j, q, hj, by simp [hmem]⟩

theorem idxOf_eq_of_getElem?
    (hW : W.Nodup) (hn : W[i]? = some n) :
  W.idxOf n = i
  := by
  obtain ⟨hlt, rfl⟩ := List.getElem?_eq_some_iff.mp hn
  apply hW.idxOf_getElem

/-- One arrow is drawn for each exit which is followed and for each slot of the nodes which are
entered, and no other arrow. -/
theorem Draws.perm_arrows
    (h : Draws g V i n ps V₁ ls) (hi : V[i]? = some n) (hV : V₁ <+: W) (hW : W.Nodup) :
  ∃ new, V₁ = V ++ new ∧ ((ls.filter Line.isArrow).map some).Perm
    ((ps.map (Slot.mk n) ++ new.flatMap g.slots).map (g.arrow? W))
  := by
  induction h with
  | nil =>
      use [], (List.append_nil _).symm
      simp
  | @seen V V₁ i n m p ps ls hp hm hrest ih =>
      obtain ⟨new, rfl, hperm⟩ := ih hi hV
      have harrow : g.arrow? W ⟨n, p⟩ = some (.arrow i p (V.idxOf m)) := by
        have hVW := hrest.isPrefix.trans hV
        rw [FlowGraph.arrow?, hp, Option.map_some,
          idxOf_eq_of_getElem? hW (getElem?_of_isPrefix hVW hi),
          idxOf_eq_of_getElem? hW (getElem?_of_isPrefix hVW (getElem?_idxOf hm))]
      use new, rfl
      rw [List.map_cons, List.cons_append, List.map_cons, harrow]
      apply hperm.cons
  | @fresh V V₁ V₂ i n m p ps ls₁ ls₂ hp hm hbehind hrest ihbehind ihrest =>
      have hVm := getElem?_of_append_isPrefix (hbehind.isPrefix.trans (hrest.isPrefix.trans hV))
      have hi₁ := getElem?_of_isPrefix ((List.prefix_append _ _).trans hbehind.isPrefix) hi
      have harrow : g.arrow? W ⟨n, p⟩ = some (.arrow i p V.length) := by
        rw [FlowGraph.arrow?, hp, Option.map_some, idxOf_eq_of_getElem? hW hVm,
          idxOf_eq_of_getElem? hW (getElem?_of_isPrefix (hrest.isPrefix.trans hV) hi₁)]
      obtain ⟨new₁, rfl, hperm₁⟩ := ihbehind (by simp) (hrest.isPrefix.trans hV)
      obtain ⟨new₂, rfl, hperm₂⟩ := ihrest hi₁ hV
      use m :: (new₁ ++ new₂), by simp
      have hlines :
          ((.node V.length (g.content m).figure :: ls₁ ++ .arrow i p V.length :: ls₂).filter
            Line.isArrow).map some
          = (ls₁.filter Line.isArrow).map some
            ++ some (.arrow i p V.length) :: (ls₂.filter Line.isArrow).map some := by
        simp [List.filter_cons, Line.isArrow]
      have hslots :
          ((p :: ps).map (Slot.mk n) ++ (m :: (new₁ ++ new₂)).flatMap g.slots).map (g.arrow? W)
          = some (.arrow i p V.length) :: ((ps.map (Slot.mk n)).map (g.arrow? W)
            ++ ((g.slots m ++ new₁.flatMap g.slots).map (g.arrow? W)
              ++ (new₂.flatMap g.slots).map (g.arrow? W))) := by
        simp [harrow]
      rw [List.map_append] at hperm₂
      rw [hlines, hslots]
      apply List.perm_middle.trans
      apply List.Perm.cons
      -- the arrows behind the new node are drawn before the other arrows out of `n`
      apply (hperm₁.append hperm₂).trans
      apply List.perm_append_comm_assoc

end Drawing

namespace FlowGraph

open Drawing

variable {g : FlowGraph} {order : List Node} {ls : List Line} {arrows : List (Nat × Nat)}

/-- `order` lists the nodes which can be reached from the start as a depth-first survey enters them:
in the order in which the simple routes, listed depth first, come to them for the first time.  The
places in it number these nodes from `0`, which is the number of the start. -/
structure IsPreorder (g : FlowGraph) (order : List Node) : Prop where
  nodup : order.Nodup
  mem_iff : ∀ n, n ∈ order ↔ g.Reaches .start n
  start : order.idxOf .start = 0
  bijOn : Set.BijOn order.idxOf {n | g.Reaches .start n} (Set.Iio order.length)
  survey : g.depthFirst = .ok order
  routes : ∃ routes, g.ListsSimpleRoutes .start routes ∧ order = (routes.map Route.last).eraseDups

/-- The places in a list number its members. -/
theorem bijOn_idxOf
    (h : order.Nodup) :
  Set.BijOn order.idxOf {n | n ∈ order} (Set.Iio order.length)
  := by
  refine ⟨?mapsTo, ?injOn, ?surjOn⟩
  case mapsTo =>
    intro n hn
    apply List.idxOf_lt_length_of_mem hn
  case injOn =>
    intro n hn m _ heq
    exact (List.idxOf_inj hn).mp heq
  case surjOn =>
    intro i hi
    exact ⟨order[i], List.getElem_mem hi, h.idxOf_getElem i hi⟩

/-- A drawing numbers the nodes in depth-first preorder.  To each node but the start an arrow is
drawn from a node with a smaller number, and one arrow is drawn for each slot. -/
theorem exists_isPreorder
    (h : g.drawing = .ok ls) :
  ∃ order, g.IsPreorder order ∧ g.Numbers order ls
    ∧ (∀ k, 0 < k → k < order.length → ∃ j p, j < k ∧ .arrow j p k ∈ ls)
    ∧ ((ls.filter Line.isArrow).map some).Perm ((order.flatMap g.slots).map (g.arrow? order))
  := by
  obtain ⟨order, ls₁, hdraws, rfl⟩ := exists_draws h
  have hnumbers := numbers_of_draws hdraws
  have hsurvey : g.depthFirst = .ok order := hdraws.survey
  refine ⟨order, ?preorder, hnumbers, ?earlier, ?slots⟩
  case preorder =>
    have hbijOn := bijOn_idxOf hnumbers.nodup
    simp only [hnumbers.mem_iff] at hbijOn
    exact {
      nodup := hnumbers.nodup
      mem_iff := hnumbers.mem_iff
      start := idxOf_eq_of_getElem? hnumbers.nodup hnumbers.start
      bijOn := hbijOn
      survey := hsurvey
      routes := ⟨_, g.listsSimpleRoutes .start, depthFirst_eq hsurvey⟩ }
  case earlier =>
    intro k hk hk₁
    obtain ⟨j, p, hj, hmem⟩ := hdraws.exists_arrow_lt Nat.zero_lt_one hk hk₁
    exact ⟨j, p, hj, List.mem_cons_of_mem _ hmem⟩
  case slots =>
    obtain ⟨new, rfl, hperm⟩ := hdraws.perm_arrows rfl List.prefix_rfl hnumbers.nodup
    exact hperm

/-- The set of the arrows has the pairs of numbers which arrows of the drawing join. -/
theorem mem_arrowSet_iff
    {i j : Nat} (hls : g.drawing = .ok ls) (h : g.arrowSet = .ok arrows) :
  (i, j) ∈ arrows ↔ ∃ p, .arrow i p j ∈ ls
  := by
  rw [arrowSet, hls] at h
  cases h
  rw [List.mem_mergeSort, List.mem_eraseDups, List.mem_filterMap]
  constructor
  · rintro ⟨l, hl, hends⟩
    cases l with
    | node _ _ => contradiction
    | arrow _ p _ =>
        cases hends
        exact ⟨p, hl⟩
  · rintro ⟨p, hl⟩
    exact ⟨_, hl, rfl⟩

/-- Nodes are joined by an arrow if there is an edge between them. -/
theorem Numbers.exists_arrow_iff
    {i j : Nat} (h : g.Numbers order ls) :
  (∃ p, .arrow i p j ∈ ls)
    ↔ ∃ n m, g.Reaches .start n ∧ g.Edge n m ∧ order.idxOf n = i ∧ order.idxOf m = j
  := by
  constructor
  · rintro ⟨p, hl⟩
    obtain ⟨n, m, hn, hm, hp⟩ := (h.lines _).mp hl
    use n, m, (h.mem_iff n).mp (List.mem_of_getElem? hn), ⟨p, hp⟩
    exact ⟨idxOf_eq_of_getElem? h.nodup hn, idxOf_eq_of_getElem? h.nodup hm⟩
  · rintro ⟨n, m, hn, ⟨p, hp⟩, rfl, rfl⟩
    use p
    apply (h.lines _).mpr
    use n, m, getElem?_idxOf ((h.mem_iff n).mpr hn)
    exact ⟨getElem?_idxOf ((h.mem_iff m).mpr (hn.tail ⟨p, hp⟩)), hp⟩

/-- The arrows of a graph join the numbers of the nodes which an edge joins, where the nodes are
numbered in depth-first preorder, and the text has one line for each slot of these nodes. -/
theorem arrowSet_exact
    (h : g.arrowSet = .ok arrows) :
  ∃ order text, g.IsPreorder order ∧ g.dot = .ok text
    ∧ (∀ i j, (i, j) ∈ arrows
      ↔ ∃ n m, g.Reaches .start n ∧ g.Edge n m ∧ order.idxOf n = i ∧ order.idxOf m = j)
    ∧ (∀ k, 0 < k → k < order.length → ∃ i, i < k ∧ (i, k) ∈ arrows)
    ∧ ((arrowLines text).map some).Perm
      ((order.flatMap g.slots).map fun s => (g.arrow? order s).map Line.indented)
  := by
  obtain ⟨ls, hls⟩ : ∃ ls, g.drawing = .ok ls := by
    cases hdrawing : g.drawing with
    | ok ls => exact ⟨ls, rfl⟩
    | error e =>
        rw [arrowSet, hdrawing] at h
        contradiction
  obtain ⟨order, hpreorder, hnumbers, hearlier, hslots⟩ := exists_isPreorder hls
  have hdot : g.dot = .ok (render ls) := by rw [dot, hls, Except.map]
  refine ⟨order, render ls, hpreorder, hdot, ?edges, ?earlier, ?lines⟩
  case edges =>
    intro i j
    rw [mem_arrowSet_iff hls h, hnumbers.exists_arrow_iff]
  case earlier =>
    intro k hk hk₁
    obtain ⟨i, p, hi, hmem⟩ := hearlier k hk hk₁
    exact ⟨i, hi, (mem_arrowSet_iff hls h).mpr ⟨p, hmem⟩⟩
  case lines =>
    have hindented := hslots.map (Option.map Line.indented)
    rw [arrowLines_render]
    simpa [List.map_map, Function.comp_def] using hindented

/-- A jump both of whose slots lead to a second one, which leads to itself or to a block whose text
looks like lines of a drawing, and from there back.  The last block cannot be reached. -/
def tangle : FlowGraph where
  parameters := []
  entry := some (.inner 0)
  cells := #[
    .jump (.read ⟨0, "a"⟩) (some (.inner 1)) (some (.inner 1)),
    .jump (.read ⟨0, "a"⟩) (some (.inner 1)) (some (.inner 2)),
    .block [.eval (.read ⟨1, "\"\n    0 -> 5;"⟩)] (some (.inner 3)),
    .jump (.read ⟨0, "a"⟩) (some (.inner 0)) (some .stop),
    .block [] none]

/-- The arrows of the tangle are those of the nodes which can be reached. -/
theorem arrowSet_exact_tangle :
  tangle.arrowSet = .ok [(0, 1), (1, 2), (2, 2), (2, 3), (3, 4), (4, 1), (4, 5)]
    ∧ ∃ order text, tangle.IsPreorder order ∧ tangle.dot = .ok text
      ∧ ((arrowLines text).map some).Perm
        ((order.flatMap tangle.slots).map fun s => (tangle.arrow? order s).map Line.indented)
  := by
  have harrows :
      tangle.arrowSet = .ok [(0, 1), (1, 2), (2, 2), (2, 3), (3, 4), (4, 1), (4, 5)] := by
    rw [← map_pairs_sheet]
    decide +kernel
  obtain ⟨order, text, horder, htext, -, -, hlines⟩ := arrowSet_exact harrows
  exact ⟨harrows, order, text, horder, htext, hlines⟩

end FlowGraph

end MethodFlow
