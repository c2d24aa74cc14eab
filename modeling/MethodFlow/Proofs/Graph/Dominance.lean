import MethodFlow.Proofs.Graph.Shortcut

/-!
# Dominance

`FlowGraph.ReachesIn` is reachability along nodes with a given property, and a node dominates
another one if the latter cannot be reached from the start along nodes different from the former.  A
route may be cut so that it does not come back to its first node (`ReachesIn.cut`), and from a node
which slides over empty blocks a route may be taken up behind them (`ReachesIn.of_slides`).
-/

namespace MethodFlow

namespace FlowGraph

variable {g : FlowGraph} {P Q : Node → Prop} {n k m : Node}

/-- `m` can be reached from `n` along nodes of which `P` holds, both ends included. -/
inductive ReachesIn (g : FlowGraph) (P : Node → Prop) : Node → Node → Prop where
  | refl {n : Node} (hn : P n) : ReachesIn g P n n
  | step {n k m : Node} (hn : P n) (hedge : g.Edge n k) (h : ReachesIn g P k m) : ReachesIn g P n m

/-- Every route from the start to `n` comes to `d`. -/
def Dominates (g : FlowGraph) (d n : Node) : Prop :=
  ¬ g.ReachesIn (· ≠ d) .start n

theorem ReachesIn.left
    (h : g.ReachesIn P n m) :
  P n
  := by
  cases h with
  | refl hn => apply hn
  | step hn _ _ => apply hn

theorem ReachesIn.mono
    (h : g.ReachesIn P n m) (hPQ : ∀ k, P k → Q k) :
  g.ReachesIn Q n m
  := by
  induction h with
  | refl hn => apply ReachesIn.refl (hPQ _ hn)
  | step hn hedge _ ih => apply ReachesIn.step (hPQ _ hn) hedge ih

theorem ReachesIn.trans
    (h : g.ReachesIn P n k) (h' : g.ReachesIn P k m) :
  g.ReachesIn P n m
  := by
  induction h with
  | refl _ => apply h'
  | step hn hedge _ ih => apply ReachesIn.step hn hedge (ih h')

/-- A route which comes to another node need not come back to its first node. -/
theorem ReachesIn.cut
    (h : g.ReachesIn P n m) :
  m = n ∨ ∃ k, g.Edge n k ∧ g.ReachesIn (fun j => P j ∧ j ≠ n) k m
  := by
  have hfrom : ∀ {i}, g.ReachesIn P i m → m = n ∨ g.ReachesIn (fun j => P j ∧ j ≠ n) i m
      ∨ ∃ k, g.Edge n k ∧ g.ReachesIn (fun j => P j ∧ j ≠ n) k m := by
    intro i hi
    induction hi with
    | @refl i hP =>
        by_cases hin : i = n
        · left
          apply hin
        · right
          left
          apply ReachesIn.refl ⟨hP, hin⟩
    | @step i k m hP hedge _ ih =>
        obtain heq | htail | hlater := ih h
        · left
          apply heq
        · right
          by_cases hin : i = n
          · right
            subst hin
            exact ⟨k, hedge, htail⟩
          · left
            apply ReachesIn.step ⟨hP, hin⟩ hedge htail
        · right
          right
          apply hlater
  obtain heq | hn | hlater := hfrom h
  · left
    apply heq
  · exact absurd rfl hn.left.2
  · right
    apply hlater

/-- A route over an empty block to another node goes on from where the block leads. -/
theorem ReachesIn.of_skips
    (h : g.ReachesIn P n m) (hskip : g.Skips n k) (hne : m ≠ n) :
  g.ReachesIn P k m
  := by
  cases h with
  | refl _ => exact absurd rfl hne
  | step _ hedge h =>
      obtain ⟨p, hp⟩ := hedge
      rwa [hskip.unique (skips_of_target? hskip.1 hp)]

/-- A route over empty blocks to a node which is none goes on from behind these blocks. -/
theorem ReachesIn.of_slides
    (h : g.ReachesIn P n m) (hslide : g.Slides n k) (hm : ¬ (g.content m).isEmptyBlock) :
  g.ReachesIn P k m
  := by
  induction hslide with
  | refl => apply h
  | tail _ hskip ih =>
      apply ih.of_skips hskip
      rintro rfl
      apply hm hskip.1

theorem Slides.reaches
    (h : g.Slides n m) :
  g.Reaches n m
  := reaches_iff_exists_run.mpr ⟨_, _, h.run⟩

end FlowGraph

end MethodFlow
