import Mathlib.Data.List.Sort
import MethodFlow.Drawing.Sheet
import MethodFlow.Proofs.Walk.Mirroring

/-!
# The sheet of a drawing

Drawing on a sheet mirrors drawing alone: the numbers given are the places of the nodes entered, and
the pairs noted are those which the arrows drawn so far join (`Drawing.Sheet.Shows`).  So the lines
of the sheet are the drawing, and its pairs are the set of arrows (`FlowGraph.map_lines_sheet`,
`FlowGraph.map_pairs_sheet`).
-/

namespace MethodFlow

namespace Drawing

/-! ### Pairs in ascending order -/

variable {p q : Nat × Nat} {pairs ends : List (Nat × Nat)}

theorem pairLE_trans
    (a b c : Nat × Nat) (h : pairLE a b) (h' : pairLE b c) :
  pairLE a c
  := by
  simp only [pairLE, Bool.or_eq_true, decide_eq_true_eq, Bool.and_eq_true, beq_iff_eq] at *
  omega

theorem pairLE_total
    (a b : Nat × Nat) :
  pairLE a b || pairLE b a
  := by
  simp only [pairLE, Bool.or_eq_true, decide_eq_true_eq, Bool.and_eq_true, beq_iff_eq]
  omega

theorem pairLE_antisymm
    {a b : Nat × Nat} (h : pairLE a b) (h' : pairLE b a) :
  a = b
  := by
  simp only [pairLE, Bool.or_eq_true, decide_eq_true_eq, Bool.and_eq_true, beq_iff_eq] at h h'
  apply Prod.ext <;> omega

/-- The pairs are these ones, in ascending order and each one once. -/
structure Lists (pairs ends : List (Nat × Nat)) : Prop where
  ascending : pairs.Pairwise fun a b => pairLE a b ∧ a ≠ b
  mem_iff : ∀ p, p ∈ pairs ↔ p ∈ ends

theorem mem_insertPair :
  q ∈ insertPair p pairs ↔ q = p ∨ q ∈ pairs
  := by
  induction pairs with
  | nil => simp [insertPair]
  | cons r pairs ih =>
      unfold insertPair
      split
      case isTrue heq => simp [heq]
      case isFalse =>
        split
        case isTrue => simp
        case isFalse => simp [ih, or_left_comm]

theorem ascending_insertPair
    (h : pairs.Pairwise fun a b => pairLE a b ∧ a ≠ b) :
  (insertPair p pairs).Pairwise fun a b => pairLE a b ∧ a ≠ b
  := by
  induction pairs with
  | nil => simp [insertPair]
  | cons r pairs ih =>
      obtain ⟨hfirst, hrest⟩ := List.pairwise_cons.mp h
      unfold insertPair
      split
      case isTrue => exact h
      case isFalse hne =>
        split
        case isTrue hle =>
          apply List.pairwise_cons.mpr ⟨_, h⟩
          intro q hq
          obtain rfl | hq := List.mem_cons.mp hq
          · exact ⟨hle, hne⟩
          · obtain ⟨hle', -⟩ := hfirst q hq
            use pairLE_trans p r q hle hle'
            rintro rfl
            exact hne (pairLE_antisymm hle hle')
        case isFalse hle =>
          apply List.pairwise_cons.mpr ⟨_, ih hrest⟩
          intro q hq
          obtain rfl | hq := mem_insertPair.mp hq
          · have htotal := pairLE_total q r
            rw [Bool.eq_false_of_not_eq_true hle, Bool.false_or] at htotal
            exact ⟨htotal, Ne.symm hne⟩
          · exact hfirst q hq

theorem Lists.insertPair
    (h : Lists pairs ends) (p : Nat × Nat) :
  Lists (insertPair p pairs) (ends ++ [p])
  where
  ascending := ascending_insertPair h.ascending
  mem_iff q := by rw [mem_insertPair, h.mem_iff, List.mem_append, List.mem_singleton, or_comm]

theorem nodup_eraseDups
    (ends : List (Nat × Nat)) :
  ends.eraseDups.Nodup
  := by
  induction hn : ends.length using Nat.strong_induction_on generalizing ends with
  | _ n ih =>
      cases ends with
      | nil => simp
      | cons p ends =>
          rw [List.eraseDups_cons, List.nodup_cons]
          constructor
          · simp
          · apply ih _ _ _ rfl
            rw [← hn, List.length_cons]
            apply Nat.lt_succ_of_le (List.length_filter_le _ _)

/-- Pairs in ascending order and each one once are the outcome of sorting. -/
theorem Lists.eq_mergeSort
    (h : Lists pairs ends) :
  pairs = ends.eraseDups.mergeSort pairLE
  := by
  have hsort := List.mergeSort_perm ends.eraseDups pairLE
  have hperm : pairs.Perm (ends.eraseDups.mergeSort pairLE) := by
    apply List.Perm.trans _ hsort.symm
    apply (List.perm_ext_iff_of_nodup (h.ascending.imp And.right) (nodup_eraseDups ends)).mpr
    intro p
    rw [h.mem_iff, List.mem_eraseDups]
  have hsorted : (ends.eraseDups.mergeSort pairLE).Pairwise fun a b => pairLE a b :=
    List.pairwise_mergeSort pairLE_trans pairLE_total _
  apply hperm.eq_of_pairwise _ (h.ascending.imp And.left) hsorted
  intro a b _ _
  apply pairLE_antisymm

/-! ### Numbers in the order of entering -/

/-- A node is found with its place if it is in the list. -/
theorem lookup_zipIdx
    (V : List Node) (k : Nat) (n : Node) :
  (V.zipIdx k).lookup n = if n ∈ V then some (V.idxOf n + k) else none
  := by
  induction V generalizing k with
  | nil => simp
  | cons m V ih =>
      rw [List.zipIdx_cons, List.lookup_cons, ih]
      by_cases h : n = m
      · simp [h]
      · have hfirst : (n == m) = false := beq_eq_false_iff_ne.mpr h
        have hplace : (m :: V).idxOf n = V.idxOf n + 1 := List.idxOf_cons_ne V (Ne.symm h)
        simp only [hfirst, hplace, List.mem_cons, h, false_or]
        rw [Nat.add_right_comm, Nat.add_assoc]

namespace Sheet

open Walk

variable {g : FlowGraph} {V : List Node} {ls : Array Line} {w : Sheet} {n : Node}
  {visit : Node → Draw Nat} {visit' : Node → Walk Visited Sheet Nat}

/-- The sheet shows the lines drawn, with the places of these nodes as numbers and with the pairs
which the arrows join. -/
structure Shows (V : List Node) (ls : Array Line) (w : Sheet) : Prop where
  lines : w.lines = ls
  numbers : w.numbers = V.zipIdx
  pairs : Lists w.pairs (ls.toList.filterMap Line.ends?)

theorem Shows.length_numbers
    (h : Shows V ls w) :
  w.numbers.length = V.length
  := by
  rw [h.numbers, List.length_zipIdx]

theorem Shows.lookup
    (h : Shows V ls w) (n : Node) :
  w.numbers.lookup n = if n ∈ V then some (V.idxOf n) else none
  := by
  rw [h.numbers, lookup_zipIdx]
  rfl

theorem Shows.give
    (h : Shows V ls w) (n : Node) :
  Shows (V ++ [n]) ls (w.give n)
  where
  lines := h.lines
  numbers := by
    change w.numbers ++ [(n, w.numbers.length)] = (V ++ [n]).zipIdx
    rw [h.length_numbers, h.numbers, List.zipIdx_append]
    simp
  pairs := h.pairs

theorem Shows.number_of_mem
    (h : Shows V ls w) (hn : n ∈ V) (v : Visited) :
  number n ⟨v, w⟩ = .ok (V.idxOf n) ⟨v, w⟩
  := by
  rw [number_apply, h.lookup, if_pos hn]

theorem Shows.number_of_not_mem
    (h : Shows V ls w) (hn : n ∉ V) (v : Visited) :
  number n ⟨v, w⟩ = .ok V.length ⟨v, w.give n⟩
  := by
  rw [number_apply, h.lookup, if_neg hn, h.length_numbers]

theorem numberOf_of_not_mem
    (hn : n ∉ V) (ls : Array Line) :
  numberOf n ⟨⟨V ++ [n]⟩, ls⟩ = .ok V.length ⟨⟨V ++ [n]⟩, ls⟩
  := by
  have hplace : (V ++ [n]).idxOf n = V.length := by
    rw [List.idxOf_append_of_notMem hn]
    simp
  exact hplace ▸ rfl

/-- The nodes entered are the same, and the sheet shows the lines drawn with their numbers. -/
structure ShowsVisited (s : Progress Visited (Array Line)) (t : Progress Visited Sheet) : Prop where
  trail : t.trail = s.trail
  work : Shows s.trail.nodes s.work t.work

/-- Drawing and drawing on a sheet come to the same. -/
abbrev MirrorsShown {α : Type} (x : Draw α) (y : Walk Visited Sheet α) : Prop :=
  Mirrors ShowsVisited ShowsVisited (fun _ _ => True) x y

/-- Visits on a sheet come to the same. -/
def VisitorsShown (visit : Node → Draw Nat) (visit' : Node → Walk Visited Sheet Nat) : Prop :=
  ∀ n, MirrorsShown (visit n) (visit' n)

/-- Drawing a node adds no pair. -/
theorem mirrors_draw_node
    (i : Nat) (figure : Figure) :
  MirrorsShown (Drawing.draw (.node i figure)) (Walk.work (draw (.node i figure)))
  := by
  apply mirrors_work
  intro s t h
  refine ⟨h.trail, congrArg (Array.push · _) h.work.lines, h.work.numbers, ?_⟩
  have hends : (s.work.push (.node i figure)).toList.filterMap Line.ends?
      = s.work.toList.filterMap Line.ends? := by
    simp [Line.ends?]
  rw [hends]
  apply h.work.pairs

/-- The pair of an arrow is noted and the arrow is drawn. -/
theorem mirrors_draw_arrow
    (i j : Nat) (e : Exit) :
  MirrorsShown (Drawing.draw (.arrow i e j))
    (do Walk.work (join i j); Walk.work (draw (.arrow i e j)))
  := by
  intro s t h
  apply Alike.ok
  refine ⟨h.trail, congrArg (Array.push · _) h.work.lines, h.work.numbers, ?_⟩
  have hends : (s.work.push (.arrow i e j)).toList.filterMap Line.ends?
      = s.work.toList.filterMap Line.ends? ++ [(i, j)] := by
    simp [Line.ends?]
  change Lists (insertPair (i, j) t.work.pairs) ((s.work.push (.arrow i e j)).toList.filterMap _)
  rw [hends]
  apply h.work.pairs.insertPair

theorem mirrors_follow
    (hvisit : VisitorsShown visit visit') (i : Nat) (s : Slot) :
  MirrorsShown (Drawing.follow g visit i s) (follow g visit' i s)
  := by
  apply (mirrors_ofExcept (fun _ _ _ => trivial) _).bind
  intro m
  apply (hvisit m).bind
  intro j
  apply mirrors_draw_arrow

/-- A node with a number is drawn and its exits are followed alike. -/
theorem mirrors_inside
    (g : FlowGraph) (hvisit : VisitorsShown visit visit') (n : Node) (i : Nat) :
  MirrorsShown
    (do
      Drawing.draw (.node i (g.content n).figure)
      (g.exits n).forM fun e => Drawing.follow g visit i ⟨n, e⟩
      return i)
    (do
      Walk.work (draw (.node i (g.content n).figure))
      (g.exits n).forM fun e => follow g visit' i ⟨n, e⟩
      return i)
  := by
  apply (mirrors_draw_node i _).bind
  intro _
  have hexits : MirrorsShown ((g.exits n).forM fun e => Drawing.follow g visit i ⟨n, e⟩)
      ((g.exits n).forM fun e => follow g visit' i ⟨n, e⟩) := by
    apply mirrors_forM
    intro e _
    apply mirrors_follow hvisit
  apply hexits.bind
  intro _
  apply mirrors_pure

/-- Steps come to the same if the visits behind them do. -/
theorem visitorsShown_step
    (hvisit : VisitorsShown visit visit') :
  VisitorsShown (Drawing.step g visit) (step g visit')
  := by
  rintro n ⟨⟨V⟩, ls⟩ ⟨_, w⟩ ⟨rfl, hshows : Shows V ls w⟩
  by_cases hn : n ∈ V
  · have hrefused : Trail.enter? n (⟨V⟩ : Visited) = none := if_pos hn
    rw [Drawing.step, step, node_of_refused hrefused, node_of_refused hrefused,
      hshows.number_of_mem hn]
    exact .ok ⟨rfl, hshows⟩
  · have hentered : Trail.enter? n (⟨V⟩ : Visited) = some ⟨V ++ [n]⟩ := if_neg hn
    rw [Drawing.step, step, node_of_entered hentered, node_of_entered hentered, bind_apply,
      bind_apply, numberOf_of_not_mem hn, hshows.number_of_not_mem hn]
    have hends := mirrors_inside g hvisit n V.length ⟨⟨V ++ [n]⟩, ls⟩ ⟨⟨V ++ [n]⟩, w.give n⟩
      ⟨rfl, hshows.give n⟩
    dsimp only
    generalize (Drawing.draw _ >>= _ : Draw Nat) _ = result,
      (Walk.work _ >>= _ : Walk Visited Sheet Nat) _ = result' at hends
    cases hends with
    | ok h => exact .ok h
    | error h => exact .error h

theorem visitorsShown_nest
    (g : FlowGraph) (depth : Nat) :
  VisitorsShown (nest (Drawing.step g) depth) (nest (step g) depth)
  := by
  apply nest_related
  · intro n
    apply mirrors_pure
  · intro visit visit'
    apply visitorsShown_step

theorem shows_blank :
  Shows [] #[] blank
  where
  lines := rfl
  numbers := rfl
  pairs := ⟨List.Pairwise.nil, fun _ => Iff.rfl⟩

end Sheet

end Drawing

namespace FlowGraph

open Drawing

/-- Drawing a graph comes to its end on a sheet if it does without one, and fails for the same
reason otherwise. -/
theorem alike_sheet
    (g : FlowGraph) :
  Walk.Alike Sheet.ShowsVisited (fun _ _ => True)
    (Walk.nest (Drawing.step g) g.nesting .start ⟨Trail.empty, #[]⟩)
    (Walk.nest (Sheet.step g) g.nesting .start ⟨Trail.empty, .blank⟩)
  := Sheet.visitorsShown_nest g g.nesting .start _ _ ⟨rfl, Sheet.shows_blank⟩

/-- The lines of the sheet of a graph are its drawing. -/
theorem map_lines_sheet
    (g : FlowGraph) :
  g.sheet.map (·.lines.toList) = g.drawing
  := by
  have hends := g.alike_sheet
  unfold sheet drawing
  generalize Walk.nest (Drawing.step g) g.nesting .start ⟨Trail.empty, #[]⟩ = result,
    Walk.nest (Sheet.step g) g.nesting .start ⟨Trail.empty, .blank⟩ = result' at hends
  cases hends with
  | ok h => exact congrArg (Except.ok ·.toList) h.work.lines
  | error h => rfl

/-- The pairs of the sheet of a graph are the set of its arrows. -/
theorem map_pairs_sheet
    (g : FlowGraph) :
  g.sheet.map (·.pairs) = g.arrowSet
  := by
  have hends := g.alike_sheet
  unfold sheet arrowSet drawing
  generalize Walk.nest (Drawing.step g) g.nesting .start ⟨Trail.empty, #[]⟩ = result,
    Walk.nest (Sheet.step g) g.nesting .start ⟨Trail.empty, .blank⟩ = result' at hends
  cases hends with
  | ok h => exact congrArg Except.ok h.work.pairs.eq_mergeSort
  | error h => rfl

end FlowGraph

end MethodFlow
