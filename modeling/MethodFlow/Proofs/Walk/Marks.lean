import MethodFlow.Assignment.Check
import MethodFlow.Proofs.Walk.Mirroring
import MethodFlow.Proofs.Walk.Tour

/-!
# Paths with marks

A `MarkedPath` is a `Path` kept twice.  Where a map takes paths to trails which let in the same
nodes and are left as they were entered (`Trail.Translates`), walks on such trails mirror walks on
paths: what is mirrored inside a node is mirrored at the node (`Walk.mirrors_node`).  So tours and
the check of definite assignment come to the same on paths and on marked paths
(`FlowGraph.tour_markedPath`, `FlowGraph.unassignedReadsOn_markedPath`).

An `AssertedPath` is a marked path which finds out, whenever a node is left, whether the node is on
top of the stack.  It always is (`FlowGraph.holds_tour`, `Assignment.holds_nest`).
-/

namespace MethodFlow

/-- The map takes paths to trails which let in the same nodes and are left as they were entered. -/
structure Trail.Translates {τ : Type} [Trail τ] (f : Path → τ) : Prop where
  empty : f Trail.empty = Trail.empty
  enter? : ∀ n p, Trail.enter? n (f p) = (Trail.enter? n p).map f
  reversible : Trail.Reversible τ

/-- The path, kept twice. -/
def Path.marked (p : Path) : MarkedPath :=
  ⟨p.nodes, p.nodes⟩

theorem Path.enter?_marked
    (n : Node) (p : Path) :
  Trail.enter? n p.marked = (Trail.enter? n p).map marked
  := by
  rw [MarkedPath.enter?_eq, enter?_eq]
  by_cases hn : n ∈ p.nodes <;> simp [marked, hn]

theorem Path.translates_marked :
  Trail.Translates marked
  where
  empty := rfl
  enter? := enter?_marked
  reversible := MarkedPath.reversible

/-- A marked path, and whether each node left so far was on top of the stack. -/
structure AssertedPath where
  path : MarkedPath
  holds : Bool

namespace AssertedPath

instance : Trail AssertedPath where
  empty := ⟨Trail.empty, true⟩
  enter? n p := (Trail.enter? n p.path).map (⟨·, p.holds⟩)
  leave n p := ⟨Trail.leave n p.path, p.holds && p.path.stack.head? == some n⟩

/-- Leaving a node just entered gives back the stack and the marks, and the node is on top. -/
theorem reversible :
  Trail.Reversible AssertedPath
  := by
  intro n p q h
  obtain ⟨marked, hmarked, rfl⟩ := Option.map_eq_some_iff.mp h
  change (⟨Trail.leave n marked, p.holds && marked.stack.head? == some n⟩ : AssertedPath) = p
  rw [MarkedPath.leave_of_enter? hmarked, MarkedPath.head?_stack_of_enter? hmarked,
    beq_self_eq_true, Bool.and_true]

end AssertedPath

/-- The path, kept twice, when each node left so far was on top of the stack. -/
def Path.asserted (p : Path) : AssertedPath :=
  ⟨p.marked, true⟩

/-- The asserted path lets in the nodes which the path lets in. -/
theorem Path.translates_asserted :
  Trail.Translates asserted
  where
  empty := rfl
  enter? n p := by
    change (Trail.enter? n p.marked).map _ = _
    rw [enter?_marked, Option.map_map]
    rfl
  reversible := AssertedPath.reversible

/-! ### Walks on translated paths -/

namespace Walk

variable {τ σ σ' α : Type} {f : Path → τ} {p : Path}

/-- The trails are the path and its translation, and the work is related. -/
structure Along (f : Path → τ) (p : Path) (Related : σ → σ' → Prop) (s : Progress Path σ)
    (t : Progress τ σ') : Prop where
  trail_left : s.trail = p
  trail_right : t.trail = f p
  work : Related s.work t.work

variable {P Q F : σ → σ' → Prop}

theorem Along.map
    {s : Progress Path σ} {t : Progress τ σ'} {h : σ → σ} {h' : σ' → σ'} (hs : Along f p P s t)
    (hwork : ∀ w w', P w w' → Q (h w) (h' w')) :
  Along f p Q { s with work := h s.work } { t with work := h' t.work }
  := ⟨hs.trail_left, hs.trail_right, hwork _ _ hs.work⟩

/-- What ends alike along a path ends on its translation. -/
theorem Alike.trail_final
    {x : EStateM.Result Failure (Progress Path σ) α} {y : EStateM.Result Failure (Progress τ σ') α}
    (h : Alike (Along f p Q) (Along f p F) x y) :
  (final y).trail = f p
  := by
  cases h with
  | ok h => exact h.trail_right
  | error h => exact h.trail_right

theorem mirrors_work_along
    {h : σ → σ} {h' : σ' → σ'} (hwork : ∀ w w', P w w' → Q (h w) (h' w')) :
  Mirrors (Along f p P) (Along f p Q) (Along f p F) (work h) (work h')
  := mirrors_work fun _ _ hs => hs.map hwork

/-- At a node, the computations mirror each other if those do of which they are made, those inside
wherever the walk is. -/
theorem mirrors_node [Trail τ]
    (hf : Trail.Translates f) (n : Node) {refused inside : Walk Path σ α}
    {refused' inside' : Walk τ σ' α}
    (hrefused : Mirrors (Along f p P) (Along f p Q) (Along f p F) refused refused')
    (hinside : ∀ q, Mirrors (Along f q P) (Along f q Q) (Along f q F) inside inside') :
  Mirrors (Along f p P) (Along f p Q) (Along f p F) (node n refused inside)
    (node n refused' inside')
  := by
  rintro ⟨p, w⟩ ⟨_, w'⟩ ⟨rfl, rfl, hwork⟩
  have henter := hf.enter? n p
  cases htrail : Trail.enter? n p with
  | none =>
      rw [htrail, Option.map_none] at henter
      rw [node_of_refused htrail, node_of_refused henter]
      apply hrefused _ _ ⟨rfl, rfl, hwork⟩
  | some q =>
      rw [htrail, Option.map_some] at henter
      rw [node_of_entered htrail, node_of_entered henter]
      have hends := hinside q ⟨q, w⟩ ⟨f q, w'⟩ ⟨rfl, rfl, hwork⟩
      have hleave := Path.leave_of_enter? htrail
      have hleave' := hf.reversible n _ _ henter
      generalize inside ⟨q, w⟩ = result, inside' ⟨f q, w'⟩ = result' at hends
      cases hends with
      | ok h =>
          obtain ⟨rfl, htrail', hwork⟩ := h
          exact .ok ⟨hleave, htrail' ▸ hleave', hwork⟩
      | error h =>
          obtain ⟨rfl, htrail', hwork⟩ := h
          exact .error ⟨hleave, htrail' ▸ hleave', hwork⟩

/-- On a path and on its translation, the computations come to the same and keep the same work. -/
abbrev MirrorsOn (f : Path → τ) (p : Path) (x : Walk Path σ α) (y : Walk τ σ α) : Prop :=
  Mirrors (Along f p Eq) (Along f p Eq) (Along f p Eq) x y

/-- The visitors come to the same on all paths and their translations. -/
def VisitorsMirror {ι : Type} (f : Path → τ) (visit : ι → Walk Path σ α)
    (visit' : ι → Walk τ σ α) : Prop :=
  ∀ p i, MirrorsOn f p (visit i) (visit' i)

theorem mirrorsOn_work
    (h : σ → σ) :
  MirrorsOn f p (work h) (work h)
  := mirrors_work_along fun _ _ => congrArg h

theorem mirrorsOn_ofExcept
    (x : Except Failure α) :
  MirrorsOn f p (MonadExcept.ofExcept x : Walk Path σ α) (MonadExcept.ofExcept x)
  := mirrors_ofExcept (fun _ _ h => h) x

end Walk

variable {τ : Type} {f : Path → τ}

open Walk

/-! ### Tours -/

namespace Tour

/-- Visits of tours on paths and on their translations mirror each other. -/
theorem visitorsMirror_nest [Trail τ]
    (hf : Trail.Translates f) (g : FlowGraph) (depth : Nat) :
  VisitorsMirror f (nest (step g) depth) (nest (step g) depth)
  := by
  apply nest_related fun _ _ => mirrors_pure _
  intro visit visit' hvisit p n
  apply mirrors_node hf n (mirrorsOn_work _)
  intro q
  apply (mirrorsOn_work _).bind
  intro _
  apply (mirrorsOn_ofExcept _).bind
  intro ms
  apply mirrors_forM
  intro m _
  apply hvisit q m

end Tour

/-- On trails into which paths translate, a tour meets the same nodes and ends in the same way. -/
theorem FlowGraph.tour_of_translates [Trail τ]
    (hf : Trail.Translates f) (g : FlowGraph) (n : Node) :
  g.tour τ n = ⟨(g.tour Path n).meetings, f (g.tour Path n).trail, (g.tour Path n).outcome⟩
  := by
  have hends := Tour.visitorsMirror_nest hf g g.nesting Trail.empty n ⟨Trail.empty, #[]⟩
    ⟨Trail.empty, #[]⟩ ⟨rfl, hf.empty.symm, rfl⟩
  unfold tour
  generalize nest (Tour.step g) g.nesting n (⟨Trail.empty, #[]⟩ : Progress Path _) = result,
    nest (Tour.step g) g.nesting n (⟨Trail.empty, #[]⟩ : Progress τ _) = result' at hends
  cases hends with
  | ok h => simp only [h.trail_left, h.trail_right, h.work]
  | error h => simp only [h.trail_left, h.trail_right, h.work]

/-- A tour which keeps marks meets the same nodes and ends in the same way as one which looks at its
path. -/
theorem FlowGraph.tour_markedPath
    (g : FlowGraph) (n : Node) :
  g.tour MarkedPath n
    = ⟨(g.tour Path n).meetings, (g.tour Path n).trail.marked, (g.tour Path n).outcome⟩
  := g.tour_of_translates Path.translates_marked n

/-- Each node which a tour leaves is on top of the stack. -/
theorem FlowGraph.holds_tour
    (g : FlowGraph) (n : Node) :
  (g.tour AssertedPath n).trail.holds = true
  := by
  rw [Tour.trail_tour AssertedPath.reversible]
  rfl

/-! ### The check of definite assignment -/

namespace Assignment

theorem mirrorsOn_inScope
    {α : Type} {p : Path} {x : Check α} {y : Walk τ Work α} (h : MirrorsOn f p x y) :
  MirrorsOn f p (inScope x) (inScope y)
  := by
  have hclose : ∀ s t, Along f p Eq s t →
      Along f p Eq { s with work := Work.close s.work } { t with work := Work.close t.work } :=
    fun _ _ hs => hs.map fun _ _ => congrArg Work.close
  apply mirrors_within _ h hclose hclose
  exact fun _ _ hs => hs.map fun _ _ => congrArg Work.open

/-- Visits of the check on paths and on their translations mirror each other. -/
theorem visitorsMirror_nest [Trail τ]
    (hf : Trail.Translates f) (g : FlowGraph) (depth : Nat) :
  VisitorsMirror f (nest (step g) depth) (nest (step g) depth)
  := by
  apply nest_related fun _ _ => mirrors_pure _
  intro visit visit' hvisit p n
  apply mirrorsOn_inScope
  apply mirrors_node hf n (mirrors_pure ())
  intro q
  have hfollow : ∀ branch, MirrorsOn f q (follow g visit branch) (follow g visit' branch) := by
    intro branch
    apply (mirrorsOn_ofExcept _).bind
    intro m
    apply mirrorsOn_inScope (hvisit q m)
  have hnext : MirrorsOn f q (do visit (← target g ⟨n, .next⟩))
      (do visit' (← target g ⟨n, .next⟩)) := by
    apply (mirrorsOn_ofExcept _).bind
    intro m
    apply hvisit q m
  cases g.content n with
  | start parameters => exact hnext
  | stop => apply mirrors_pure
  | block actions next => exact (mirrorsOn_work _).bind fun _ => hnext
  | jump condition ifTrue ifFalse =>
      apply (mirrorsOn_work _).bind
      intro _
      apply (hfollow _).bind
      intro _
      apply hfollow

/-- Each node which the check leaves is on top of the stack. -/
theorem holds_nest
    (g : FlowGraph) (depth : Nat) (n : Node) (p : Path) (w : Work) :
  (final (nest (step g) depth n ⟨p.asserted, w⟩)).trail.holds = true
  := by
  have hends := visitorsMirror_nest Path.translates_asserted g depth p n ⟨p, w⟩
    ⟨p.asserted, w⟩ ⟨rfl, rfl, rfl⟩
  rw [hends.trail_final]
  rfl

end Assignment

/-- The reads of variables which may have no value, found by a check which keeps a trail of its own
kind. -/
def FlowGraph.unassignedReadsOn (τ : Type) [Trail τ] (g : FlowGraph) :
    Except Failure (List Finding) :=
  match nest (Assignment.step g) g.nesting .start
      (⟨Trail.empty, (Assignment.initial g).work⟩ : Progress τ Assignment.Work) with
  | .ok _ s => .ok s.work.findings.toList
  | .error e _ => .error e

/-- On trails into which paths translate, the check comes to the same. -/
theorem FlowGraph.unassignedReadsOn_of_translates [Trail τ]
    (hf : Trail.Translates f) (g : FlowGraph) :
  g.unassignedReadsOn τ = g.unassignedReads
  := by
  have hends := Assignment.visitorsMirror_nest hf g g.nesting Trail.empty .start
    (Assignment.initial g) ⟨Trail.empty, (Assignment.initial g).work⟩ ⟨rfl, hf.empty.symm, rfl⟩
  unfold unassignedReadsOn unassignedReads Assignment.visit
  generalize nest (Assignment.step g) g.nesting .start (Assignment.initial g) = result,
    nest (Assignment.step g) g.nesting .start
      (⟨Trail.empty, (Assignment.initial g).work⟩ : Progress τ _) = result' at hends
  cases hends with
  | ok h => simp only [h.work]
  | error h => rfl

/-- A check which keeps marks comes to the same as the one which looks at its path. -/
theorem FlowGraph.unassignedReadsOn_markedPath
    (g : FlowGraph) :
  g.unassignedReadsOn MarkedPath = g.unassignedReads
  := g.unassignedReadsOn_of_translates Path.translates_marked

end MethodFlow
