import Mathlib.Data.Set.Function
import MethodFlow.Proofs.Drawing.Lines
import MethodFlow.Proofs.Drawing.Text

/-!
# Drawings and matching graphs

`FlowGraph.Matches` says of a map of handles that it matches the nodes which can be reached from the
start of one graph with those of another one, so that matching nodes are drawn alike and lead to
matching nodes.  The walks through matching graphs draw the same (`FlowGraph.Matches.draws`), and in
two graphs with the same drawing the nodes with the same number match
(`FlowGraph.Numbers.matches_renumber`).  As the drawing can be read off its text, two graphs have
the same text exactly when they match (`FlowGraph.dot_eq_iff_exists_matches`).
-/

namespace MethodFlow

/-- What is drawn for a content says what a node is, which texts its actions have and which text its
condition has. -/
theorem Content.figure_eq_iff
    {c d : Content} :
  c.figure = d.figure
    ↔ c.kind = d.kind ∧ c.actions.map Action.render = d.actions.map Action.render
      ∧ c.condition?.map Expr.render = d.condition?.map Expr.render
  := by
  cases c <;> cases d <;> simp [figure, kind, actions, condition?]

namespace FlowGraph

open Drawing

variable {g h : FlowGraph} {f : Node → Node} {V V₁ V₂ W : List Node} {i j : Nat} {n m : Node}
  {ps : List Exit} {ls ls₁ ls₂ : List Line}

/-- `f` matches the nodes which can be reached from the start of `g` with those of `h`. -/
structure Matches (g h : FlowGraph) (f : Node → Node) : Prop where
  bijOn : Set.BijOn f {n | g.Reaches .start n} {n | h.Reaches .start n}
  start : f .start = .start
  kind : ∀ n, g.Reaches .start n → h.kind (f n) = g.kind n
  target? : ∀ n, g.Reaches .start n →
    ∀ p, (h.content (f n)).target? p = ((g.content n).target? p).map f
  actions : ∀ n, g.Reaches .start n →
    (h.content (f n)).actions.map Action.render = (g.content n).actions.map Action.render
  condition? : ∀ n, g.Reaches .start n →
    (h.content (f n)).condition?.map Expr.render = (g.content n).condition?.map Expr.render

/-! ### Matching graphs are drawn alike -/

theorem Matches.figure
    (hf : g.Matches h f) (hn : g.Reaches .start n) :
  (h.content (f n)).figure = (g.content n).figure
  := Content.figure_eq_iff.mpr ⟨hf.kind n hn, hf.actions n hn, hf.condition? n hn⟩

theorem Matches.exits
    (hf : g.Matches h f) (hn : g.Reaches .start n) :
  h.exits (f n) = g.exits n
  := by
  rw [FlowGraph.exits, hf.kind n hn, FlowGraph.exits]

theorem Matches.target?_eq_some
    (hf : g.Matches h f) (hn : g.Reaches .start n) {p : Exit}
    (hp : (g.content n).target? p = some m) :
  (h.content (f n)).target? p = some (f m)
  := by
  rw [hf.target? n hn, hp, Option.map_some]

theorem Matches.mem_map_iff
    (hf : g.Matches h f) (hm : g.Reaches .start m) (hV : ∀ k ∈ V, g.Reaches .start k) :
  f m ∈ V.map f ↔ m ∈ V
  := by
  constructor
  · intro hmem
    obtain ⟨k, hk, heq⟩ := List.mem_map.mp hmem
    rwa [← hf.bijOn.injOn (hV k hk) hm heq]
  · apply List.mem_map_of_mem

/-- A node has the number of its match. -/
theorem Matches.idxOf_map
    (hf : g.Matches h f) (hm : g.Reaches .start m) (hV : ∀ k ∈ V, g.Reaches .start k) :
  (V.map f).idxOf (f m) = V.idxOf m
  := by
  induction V with
  | nil => rfl
  | cons k V ih =>
      obtain ⟨hk, hV⟩ := List.forall_mem_cons.mp hV
      by_cases heq : k = m
      · rw [heq, List.map_cons, List.idxOf_cons_self, List.idxOf_cons_self]
      · have hne : f k ≠ f m := fun hfeq => heq (hf.bijOn.injOn hk hm hfeq)
        rw [List.map_cons, List.idxOf_cons_ne _ hne, List.idxOf_cons_ne _ heq, ih hV]

/-- What is drawn in a graph is drawn in a matching one. -/
theorem Matches.draws
    (hf : g.Matches h f) (hdraws : Draws g V i n ps V₁ ls) (hn : g.Reaches .start n)
    (hV : ∀ k ∈ V, g.Reaches .start k) :
  Draws h (V.map f) i (f n) ps (V₁.map f) ls
  := by
  induction hdraws with
  | nil => apply Draws.nil
  | @seen V V₁ i n m p ps ls hp hm _ ih =>
      rw [← hf.idxOf_map (hV m hm) hV]
      apply Draws.seen (hf.target?_eq_some hn hp) (List.mem_map_of_mem hm) (ih hn hV)
  | @fresh V V₁ V₂ i n m p ps ls₁ ls₂ hp hm hbehind _ ihbehind ihrest =>
      have hreaches : g.Reaches .start m := hn.tail ⟨p, hp⟩
      have hVm : ∀ k ∈ V ++ [m], g.Reaches .start k :=
        List.forall_mem_append.mpr ⟨hV, List.forall_mem_singleton.mpr hreaches⟩
      have hbehind' := ihbehind hreaches hVm
      have hrest' := ihrest hn (hbehind.reaches hreaches hVm)
      rw [List.map_append, List.map_singleton, ← V.length_map f, ← hf.exits hreaches] at hbehind'
      rw [← hf.figure hreaches, ← V.length_map f]
      apply Draws.fresh (hf.target?_eq_some hn hp) _ hbehind' hrest'
      apply mt (hf.mem_map_iff hreaches hV).mp hm

/-- What is drawn behind a node depends on the nodes entered before only. -/
theorem draws_unique
    (hdraws : Draws g V i n ps V₁ ls₁) (hdraws' : Draws g V i n ps V₂ ls₂) :
  V₁ = V₂ ∧ ls₁ = ls₂
  := by
  induction hdraws generalizing V₂ ls₂ with
  | nil =>
      cases hdraws'
      exact ⟨rfl, rfl⟩
  | seen hp hm _ ih =>
      cases hdraws' with
      | seen hp' _ hrest =>
          obtain rfl := Option.some.inj (hp.symm.trans hp')
          obtain ⟨rfl, rfl⟩ := ih hrest
          exact ⟨rfl, rfl⟩
      | fresh hp' hm' _ _ =>
          obtain rfl := Option.some.inj (hp.symm.trans hp')
          contradiction
  | fresh hp hm _ _ ihbehind ihrest =>
      cases hdraws' with
      | seen hp' hm' _ =>
          obtain rfl := Option.some.inj (hp.symm.trans hp')
          contradiction
      | fresh hp' _ hbehind hrest =>
          obtain rfl := Option.some.inj (hp.symm.trans hp')
          obtain ⟨rfl, rfl⟩ := ihbehind hbehind
          obtain ⟨rfl, rfl⟩ := ihrest hrest
          exact ⟨rfl, rfl⟩

/-- Matching graphs have the same drawing. -/
theorem Matches.drawing_eq
    (hf : g.Matches h f) (hg : g.drawing = .ok ls₁) (hh : h.drawing = .ok ls₂) :
  ls₁ = ls₂
  := by
  obtain ⟨V, ls, hdraws, rfl⟩ := exists_draws hg
  obtain ⟨W, ls', hdraws', rfl⟩ := exists_draws hh
  have hmatch := hf.draws hdraws Relation.ReflTransGen.refl
    (List.forall_mem_singleton.mpr Relation.ReflTransGen.refl)
  rw [List.map_singleton, ← hf.exits Relation.ReflTransGen.refl, hf.start] at hmatch
  rw [(draws_unique hmatch hdraws').2]
  rfl

/-! ### Graphs which are drawn alike match -/

/-- The node which has in `W` the number which `n` has in `V`. -/
def renumber (V W : List Node) (n : Node) : Node :=
  W.getD (V.idxOf n) .start

/-- Nodes with the same number are renumbered to each other. -/
theorem renumber_eq
    (hV : V.Nodup) (hn : V[i]? = some n) (hm : W[i]? = some m) :
  renumber V W n = m
  := by
  obtain ⟨hlt, rfl⟩ := List.getElem?_eq_some_iff.mp hn
  rw [renumber, hV.idxOf_getElem, List.getD_eq_getElem?_getD, hm, Option.getD_some]

namespace Numbers

theorem exists_place
    (hg : g.Numbers V ls) (hn : g.Reaches .start n) :
  ∃ i : Nat, V[i]? = some n
  := List.mem_iff_getElem?.mp ((hg.mem_iff n).mpr hn)

theorem reaches
    (hg : g.Numbers V ls) (hn : V[i]? = some n) :
  g.Reaches .start n
  := (hg.mem_iff n).mp (List.mem_of_getElem? hn)

theorem exists_figure
    (hg : g.Numbers V ls) (hh : h.Numbers W ls) (hn : V[i]? = some n) :
  ∃ m, W[i]? = some m ∧ (h.content m).figure = (g.content n).figure
  := by
  obtain ⟨m, hm, hfigure⟩ := (hh.lines _).mp ((hg.lines (.node i _)).mpr ⟨n, hn, rfl⟩)
  exact ⟨m, hm, hfigure.symm⟩

theorem exists_target?
    (hg : g.Numbers V ls) (hh : h.Numbers W ls) (hn : V[i]? = some n) (hm : W[i]? = some m)
    {p : Exit} {k : Node} (hp : (g.content n).target? p = some k) :
  ∃ k', (h.content m).target? p = some k' ∧ renumber V W k = k'
  := by
  have hk := (hg.reaches hn).tail ⟨p, hp⟩
  obtain ⟨j, hj⟩ := hg.exists_place hk
  have harrow := (hg.lines (.arrow i p j)).mpr ⟨n, k, hn, hj, hp⟩
  obtain ⟨m', k', hm', hk', hp'⟩ := (hh.lines _).mp harrow
  obtain rfl := Option.some.inj (hm.symm.trans hm')
  exact ⟨k', hp', renumber_eq hg.nodup hj hk'⟩

/-- Every node which can be reached has the same number as what it is renumbered to. -/
theorem exists_renumber
    (hg : g.Numbers V ls) (hh : h.Numbers W ls) (hn : g.Reaches .start n) :
  ∃ i : Nat, V[i]? = some n ∧ W[i]? = some (renumber V W n)
    ∧ (h.content (renumber V W n)).figure = (g.content n).figure
  := by
  obtain ⟨i, hi⟩ := hg.exists_place hn
  obtain ⟨m, hm, hfigure⟩ := hg.exists_figure hh hi
  obtain rfl := renumber_eq hg.nodup hi hm
  exact ⟨i, hi, hm, hfigure⟩

/-- The renumbering matches nodes one to one. -/
theorem bijOn_renumber
    (hg : g.Numbers V ls) (hh : h.Numbers W ls) :
  Set.BijOn (renumber V W) {n | g.Reaches .start n} {n | h.Reaches .start n}
  := by
  refine ⟨?mapsTo, ?injOn, ?surjOn⟩
  case mapsTo =>
    intro n hn
    obtain ⟨i, -, hi, -⟩ := hg.exists_renumber hh hn
    apply hh.reaches hi
  case injOn =>
    intro n hn m hm heq
    obtain ⟨i, hi, hi', -⟩ := hg.exists_renumber hh hn
    obtain ⟨j, hj, hj', -⟩ := hg.exists_renumber hh hm
    have hlt := (List.getElem?_eq_some_iff.mp hi').1
    rw [heq, ← hj'] at hi'
    obtain rfl := (List.getElem?_inj hlt hh.nodup).mp hi'
    apply Option.some.inj (hi.symm.trans hj)
  case surjOn =>
    intro m hm
    obtain ⟨i, hi⟩ := hh.exists_place hm
    obtain ⟨n, hn, -⟩ := hh.exists_figure hg hi
    exact ⟨n, hg.reaches hn, renumber_eq hg.nodup hn hi⟩

/-- The exits of a node lead where the exits of the node with the same number lead. -/
theorem target?_renumber
    (hg : g.Numbers V ls) (hh : h.Numbers W ls) (hn : g.Reaches .start n) (p : Exit) :
  (h.content (renumber V W n)).target? p = ((g.content n).target? p).map (renumber V W)
  := by
  obtain ⟨i, hi, hi', -⟩ := hg.exists_renumber hh hn
  cases hp : (g.content n).target? p with
  | some k =>
      obtain ⟨k', hk', rfl⟩ := hg.exists_target? hh hi hi' hp
      apply hk'
  | none =>
      cases hp' : (h.content (renumber V W n)).target? p with
      | none => rfl
      | some k' =>
          -- the arrow to `k'` is drawn in `g` as well, and `p` is set there
          obtain ⟨k, hk, -⟩ := hh.exists_target? hg hi' hi hp'
          rw [hp] at hk
          contradiction

/-- The nodes with the same number in two graphs with the same drawing match. -/
theorem matches_renumber
    (hg : g.Numbers V ls) (hh : h.Numbers W ls) :
  g.Matches h (renumber V W)
  := by
  have hfigure : ∀ n, g.Reaches .start n →
      (h.content (renumber V W n)).figure = (g.content n).figure := by
    intro n hn
    obtain ⟨i, -, -, hfigure⟩ := hg.exists_renumber hh hn
    apply hfigure
  exact {
    bijOn := hg.bijOn_renumber hh
    start := renumber_eq hg.nodup hg.start hh.start
    kind n hn := (Content.figure_eq_iff.mp (hfigure n hn)).1
    target? n hn p := hg.target?_renumber hh hn p
    actions n hn := (Content.figure_eq_iff.mp (hfigure n hn)).2.1
    condition? n hn := (Content.figure_eq_iff.mp (hfigure n hn)).2.2 }

end Numbers

theorem dot_eq_ok_iff
    {t : String} :
  g.dot = .ok t ↔ ∃ ls, g.drawing = .ok ls ∧ render ls = t
  := by
  unfold dot
  cases g.drawing <;> simp [Except.map]

/-- Two graphs have the same text exactly when the nodes which can be reached from the start of the
one match those of the other. -/
theorem dot_eq_iff_exists_matches
    {t u : String} (hg : g.dot = .ok t) (hh : h.dot = .ok u) :
  t = u ↔ ∃ f, g.Matches h f
  := by
  obtain ⟨ls₁, hls₁, rfl⟩ := dot_eq_ok_iff.mp hg
  obtain ⟨ls₂, hls₂, rfl⟩ := dot_eq_ok_iff.mp hh
  constructor
  · intro htext
    obtain rfl := render_injective htext
    obtain ⟨V, hV⟩ := exists_numbers hls₁
    obtain ⟨W, hW⟩ := exists_numbers hls₂
    exact ⟨_, hV.matches_renumber hW⟩
  · intro ⟨f, hf⟩
    rw [hf.drawing_eq hls₁ hls₂]

/-- A loop around a block, made from the outside in. -/
def loopOutsideIn : FlowGraph where
  parameters := []
  entry := some (.inner 0)
  cells := #[
    .jump (.read ⟨0, "a\"b\\"⟩) (some (.inner 1)) (some .stop),
    .block [.eval (.read ⟨0, "a\"b\\"⟩), .eval (.read ⟨1, "c\nd"⟩)] (some (.inner 0))]

/-- The same loop made from the inside out, behind a block which cannot be reached, with the
variables numbered differently. -/
def loopInsideOut : FlowGraph where
  parameters := []
  entry := some (.inner 2)
  cells := #[
    .block [] none,
    .block [.eval (.read ⟨1, "a\"b\\"⟩), .eval (.read ⟨0, "c\nd"⟩)] (some (.inner 2)),
    .jump (.read ⟨1, "a\"b\\"⟩) (some (.inner 1)) (some .stop)]

/-- The two loops have the same text, so their nodes match. -/
theorem dot_eq_iff_exists_matches_loop :
  ∃ t, loopOutsideIn.dot = .ok t ∧ loopInsideOut.dot = .ok t
    ∧ ∃ f, loopOutsideIn.Matches loopInsideOut f
  := by
  let ls : List Line := [
    .node 0 .start, .node 1 (.jump "a\"b\\"), .node 2 (.block ["a\"b\\;", "c\nd;"]),
    .arrow 2 .next 1, .arrow 1 .ifTrue 2, .node 3 .stop, .arrow 1 .ifFalse 3, .arrow 0 .next 1]
  have hg : loopOutsideIn.dot = .ok (render ls) := dot_eq_ok_iff.mpr ⟨ls, rfl, rfl⟩
  have hh : loopInsideOut.dot = .ok (render ls) := dot_eq_ok_iff.mpr ⟨ls, rfl, rfl⟩
  exact ⟨_, hg, hh, (dot_eq_iff_exists_matches hg hh).mp rfl⟩

end FlowGraph

end MethodFlow
