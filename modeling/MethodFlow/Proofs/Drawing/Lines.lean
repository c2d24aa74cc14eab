import Mathlib.Data.List.Nodup
import MethodFlow.Drawing.Basic
import MethodFlow.Proofs.Graph.Run
import MethodFlow.Proofs.Graph.Unvisited

/-!
# The lines of a drawing

`Drawing.Draws` says what following the exits of a node draws, and `Drawing.Visits` what visiting a
node does, given the nodes entered before in the order of entering.  Every drawing is made that way
(`Drawing.exists_draws`).  A line holds for nodes numbered by their places in a list if there is
what it draws (`Line.Holds`), and the lines of a drawing are the ones which hold for the nodes which
can be reached from the start, in some order with the start first (`FlowGraph.exists_numbers`).
-/

namespace MethodFlow

namespace Drawing

variable {g : FlowGraph} {V V₁ V₂ : List Node} {i j : Nat} {n m : Node} {p : Exit} {ps : List Exit}
  {ls ls₁ ls₂ : List Line}

/-- Following the exits `ps` of a node `n` with number `i` draws `ls` and enters nodes, if the nodes
entered were `V` before and are `V₁` afterwards. -/
inductive Draws (g : FlowGraph) :
    List Node → Nat → Node → List Exit → List Node → List Line → Prop where
  | nil {V : List Node} {i : Nat} {n : Node} : Draws g V i n [] V []
  /-- An arrow to a node entered before. -/
  | seen {V V₁ : List Node} {i : Nat} {n m : Node} {p : Exit} {ps : List Exit} {ls : List Line}
      (hp : (g.content n).target? p = some m) (hm : m ∈ V) (h : Draws g V i n ps V₁ ls) :
      Draws g V i n (p :: ps) V₁ (.arrow i p (V.idxOf m) :: ls)
  /-- A new node, everything behind it, and the arrow to the node. -/
  | fresh {V V₁ V₂ : List Node} {i : Nat} {n m : Node} {p : Exit} {ps : List Exit}
      {ls₁ ls₂ : List Line} (hp : (g.content n).target? p = some m) (hm : m ∉ V)
      (hbehind : Draws g (V ++ [m]) V.length m (g.exits m) V₁ ls₁) (h : Draws g V₁ i n ps V₂ ls₂) :
      Draws g V i n (p :: ps) V₂
        (.node V.length (g.content m).figure :: ls₁ ++ .arrow i p V.length :: ls₂)

/-- Visiting a node `m` draws `ls` and comes to the number `j`, if the nodes entered were `V` before
and are `V₁` afterwards. -/
inductive Visits (g : FlowGraph) (V : List Node) (m : Node) :
    Nat → List Node → List Line → Prop where
  | seen (hm : m ∈ V) : Visits g V m (V.idxOf m) V []
  | fresh {V₁ : List Node} {ls : List Line} (hm : m ∉ V)
      (h : Draws g (V ++ [m]) V.length m (g.exits m) V₁ ls) :
      Visits g V m V.length V₁ (.node V.length (g.content m).figure :: ls)

theorem Visits.draws
    (h : Visits g V m j V₁ ls₁) (hp : (g.content n).target? p = some m)
    (hrest : Draws g V₁ i n ps V₂ ls₂) :
  Draws g V i n (p :: ps) V₂ (ls₁ ++ .arrow i p j :: ls₂)
  := by
  cases h with
  | seen hm => apply Draws.seen hp hm hrest
  | fresh hm hbehind => apply Draws.fresh hp hm hbehind hrest

theorem Draws.isPrefix
    (h : Draws g V i n ps V₁ ls) :
  V <+: V₁
  := by
  induction h with
  | nil => apply List.prefix_rfl
  | seen _ _ _ ih => apply ih
  | fresh _ _ _ _ ih₁ ih₂ => exact ((List.prefix_append _ _).trans ih₁).trans ih₂

theorem Visits.isPrefix
    (h : Visits g V m j V₁ ls) :
  V <+: V₁
  := by
  cases h with
  | seen _ => apply List.prefix_rfl
  | fresh _ h => exact (List.prefix_append _ _).trans h.isPrefix

/-! ### What the walk draws -/

/-- The state of the walk when nodes were entered and lines drawn. -/
abbrev progress (V : List Node) (ls : List Line) : Progress Visited (Array Line) :=
  ⟨⟨V⟩, ls.toArray⟩

/-- The visitor draws what it should wherever an exit of `n` leads, once the nodes `V` were
entered. -/
def VisitorDraws (g : FlowGraph) (n : Node) (V : List Node) (visit : Node → Draw Nat) : Prop :=
  ∀ ⦃p m V₁ ls j s⦄, (g.content n).target? p = some m → V <+: V₁ →
    visit m (progress V₁ ls) = .ok j s →
      ∃ V₂ ls₂, Visits g V₁ m j V₂ ls₂ ∧ s = progress V₂ (ls ++ ls₂)

/-- Following an exit is a visit and an arrow. -/
theorem follow_eq_ok
    {visit : Node → Draw Nat} {s s' : Progress Visited (Array Line)}
    (h : follow g visit i ⟨n, p⟩ s = .ok () s') :
  ∃ m j t, (g.content n).target? p = some m ∧ visit m s = .ok j t
    ∧ s' = { t with work := t.work.push (.arrow i p j) }
  := by
  obtain ⟨m, t, htarget, hrest⟩ := Walk.bind_eq_ok_iff.mp h
  obtain ⟨j, t', hvisit, hdraw⟩ := Walk.bind_eq_ok_iff.mp hrest
  rw [Walk.target_apply] at htarget
  split at htarget
  case h_1 m' hm =>
    cases htarget
    cases hdraw
    exact ⟨m, j, t', FlowGraph.target_eq_ok_iff.mp hm, hvisit, rfl⟩
  case h_2 => contradiction

/-- Following exits draws what it should if the visits behind them do. -/
theorem draws_of_forM_follow
    {visit : Node → Draw Nat} {s : Progress Visited (Array Line)}
    (hvisit : VisitorDraws g n V visit) (hV : V <+: V₁)
    (h : (forM ps fun p => follow g visit i ⟨n, p⟩ : Draw Unit) (progress V₁ ls) = .ok () s) :
  ∃ V₂ ls₂, Draws g V₁ i n ps V₂ ls₂ ∧ s = progress V₂ (ls ++ ls₂)
  := by
  induction ps generalizing V₁ ls with
  | nil =>
      cases h
      use V₁, [], Draws.nil
      rw [List.append_nil]
  | cons p ps ih =>
      rw [List.forM_cons] at h
      obtain ⟨_, t, hfollow, hrest⟩ := Walk.bind_eq_ok_iff.mp h
      obtain ⟨m, j, t', hp, hm, rfl⟩ := follow_eq_ok hfollow
      obtain ⟨V₂, ls₂, hvisits, rfl⟩ := hvisit hp hV hm
      rw [List.push_toArray] at hrest
      obtain ⟨V₃, ls₃, hdraws, rfl⟩ := ih (hV.trans hvisits.isPrefix) hrest
      use V₃, ls₂ ++ .arrow i p j :: ls₃, hvisits.draws hp hdraws
      simp

/-- A step draws a new node and what is behind its exits. -/
theorem visits_of_step
    {visit : Node → Draw Nat} {s : Progress Visited (Array Line)} (hm : m ∉ V)
    (hvisit : VisitorDraws g m (V ++ [m]) visit)
    (h : step g visit m (progress V ls) = .ok j s) :
  ∃ V₁ ls₁, Visits g V m j V₁ ls₁ ∧ s = progress V₁ (ls ++ ls₁)
  := by
  have hnumber : (V ++ [m]).idxOf m = V.length := by
    rw [List.idxOf_append_of_notMem hm, List.idxOf_cons_self, Nat.add_zero]
  rw [step, Walk.node_of_entered (by rw [Visited.enter?_eq, if_neg hm])] at h
  split at h
  case h_1 j' s' hinside =>
    obtain ⟨i, t, hi, hrest⟩ := Walk.bind_eq_ok_iff.mp hinside
    obtain ⟨_, t', hnode, hrest'⟩ := Walk.bind_eq_ok_iff.mp hrest
    obtain ⟨_, t'', hexits, hreturn⟩ := Walk.bind_eq_ok_iff.mp hrest'
    cases hi
    cases hnode
    cases hreturn
    cases h
    have hbehind : (forM (g.exits m) fun p => follow g visit V.length ⟨m, p⟩ : Draw Unit)
        (progress (V ++ [m]) (ls ++ [.node V.length (g.content m).figure])) = .ok () s' := by
      rw [progress, ← List.push_toArray, ← hnumber]
      exact hexits
    obtain ⟨V₁, ls₁, hdraws, rfl⟩ := draws_of_forM_follow hvisit List.prefix_rfl hbehind
    use V₁, .node V.length (g.content m).figure :: ls₁
    constructor
    · change Visits g V m ((V ++ [m]).idxOf m) V₁ _
      rw [hnumber]
      apply Visits.fresh hm hdraws
    · simp [Trail.leave]
  case h_2 => contradiction

/-- A visit nested deeper than there are nodes left draws what it should. -/
theorem visits_of_nest
    {depth : Nat} {s : Progress Visited (Array Line)} (hdepth : g.unvisited V < depth)
    (h : Walk.nest (step g) depth m (progress V ls) = .ok j s) :
  ∃ V₁ ls₁, Visits g V m j V₁ ls₁ ∧ s = progress V₁ (ls ++ ls₁)
  := by
  induction depth generalizing V m ls j s with
  | zero => exact absurd hdepth (Nat.not_lt_zero _)
  | succ depth ih =>
      rw [Walk.nest_succ] at h
      by_cases hm : m ∈ V
      · rw [step, Walk.node_of_refused (by rw [Visited.enter?_eq, if_pos hm])] at h
        cases h
        use V, [], Visits.seen hm
        rw [List.append_nil]
      · apply visits_of_step hm _ h
        intro p k V₁ ls₁ j₁ s₁ hp hV hvisit
        apply ih _ hvisit
        have hsubset : m :: V ⊆ V₁ := by
          intro k hk
          apply hV.subset
          simpa [or_comm] using hk
        have hlt := FlowGraph.unvisited_cons_lt (FlowGraph.mem_nodes_of_target? hp) hm
        have hle := FlowGraph.unvisited_le_of_subset (g := g) hsubset
        omega

/-- A drawing begins with the start, and goes on with what following its exits draws. -/
theorem exists_draws
    (h : g.drawing = .ok ls) :
  ∃ V ls₁, Draws g [.start] 0 .start (g.exits .start) V ls₁
    ∧ ls = .node 0 (g.content .start).figure :: ls₁
  := by
  unfold FlowGraph.drawing at h
  split at h
  case h_1 j s hnest =>
    change Walk.nest (step g) g.nesting .start (progress [] []) = .ok j s at hnest
    obtain ⟨V, ls₁, hvisits, rfl⟩ := visits_of_nest (g.unvisited_lt_nesting []) hnest
    cases h
    cases hvisits with
    | seen hm => contradiction
    | fresh _ hdraws => exact ⟨V, _, hdraws, rfl⟩
  case h_2 => contradiction

/-! ### Which lines are drawn -/

/-- A list of nodes numbers them by their places, and for these numbers there is what the line
draws. -/
def Line.Holds (g : FlowGraph) (V : List Node) : Line → Prop
  | .node i figure => ∃ n, V[i]? = some n ∧ figure = (g.content n).figure
  | .arrow i p j => ∃ n m, V[i]? = some n ∧ V[j]? = some m ∧ (g.content n).target? p = some m

/-- Among the lines is an arrow out of the node `n` with number `i`, through the exit `p`. -/
def HasArrow (g : FlowGraph) (V : List Node) (ls : List Line) (i : Nat) (n : Node) (p : Exit) :
    Prop :=
  ∃ m j, (g.content n).target? p = some m ∧ V[j]? = some m ∧ .arrow i p j ∈ ls

/-- Among the lines is the node `n` with number `i`, and an arrow for each of its exits. -/
def IsDrawn (g : FlowGraph) (V : List Node) (ls : List Line) (i : Nat) (n : Node) : Prop :=
  .node i (g.content n).figure ∈ ls ∧ ∀ p ∈ g.exits n, HasArrow g V ls i n p

theorem getElem?_idxOf
    (hm : m ∈ V) :
  V[V.idxOf m]? = some m
  := by
  rw [List.getElem?_eq_getElem (List.idxOf_lt_length_of_mem hm), List.getElem_idxOf]

theorem getElem?_of_isPrefix
    (hV : V <+: V₁) (h : V[i]? = some n) :
  V₁[i]? = some n
  := by
  obtain ⟨W, rfl⟩ := hV
  rwa [List.getElem?_append_left (List.getElem?_eq_some_iff.mp h).1]

theorem Line.Holds.mono
    {l : Line} (h : l.Holds g V) (hV : V <+: V₁) :
  l.Holds g V₁
  := by
  cases l with
  | node i figure =>
      obtain ⟨n, hn, hfigure⟩ := h
      exact ⟨n, getElem?_of_isPrefix hV hn, hfigure⟩
  | arrow i p j =>
      obtain ⟨n, m, hn, hm, hp⟩ := h
      exact ⟨n, m, getElem?_of_isPrefix hV hn, getElem?_of_isPrefix hV hm, hp⟩

theorem HasArrow.mono
    (h : HasArrow g V ls i n p) (hV : V <+: V₁) (hls : ls ⊆ ls₁) :
  HasArrow g V₁ ls₁ i n p
  := by
  obtain ⟨m, j, hp, hm, hmem⟩ := h
  exact ⟨m, j, hp, getElem?_of_isPrefix hV hm, hls hmem⟩

theorem IsDrawn.mono
    (h : IsDrawn g V ls i n) (hV : V <+: V₁) (hls : ls ⊆ ls₁) :
  IsDrawn g V₁ ls₁ i n
  := by
  obtain ⟨hnode, harrows⟩ := h
  exact ⟨hls hnode, fun p hp => (harrows p hp).mono hV hls⟩

theorem getElem?_of_append_isPrefix
    (h : V ++ [m] <+: V₁) :
  V₁[V.length]? = some m
  := by
  apply getElem?_of_isPrefix h
  simp

/-- What was entered with `m` or later is `m`, or was entered behind `m`, or still later. -/
theorem place_cases
    (hV : V ++ [m] <+: V₁) (hV₁ : V₁ <+: V₂) (hi : V.length ≤ i) (hn : V₂[i]? = some n) :
  (i = V.length ∧ n = m) ∨ ((V ++ [m]).length ≤ i ∧ V₁[i]? = some n) ∨ V₁.length ≤ i
  := by
  by_cases hlater : V₁.length ≤ i
  · right
    right
    apply hlater
  · by_cases hlast : i = V.length
    · subst hlast
      left
      use rfl
      apply Option.some.inj
      rw [← hn, getElem?_of_append_isPrefix (hV.trans hV₁)]
    · right
      left
      constructor
      · rw [List.length_append, List.length_singleton]
        omega
      · obtain ⟨W, rfl⟩ := hV₁
        rwa [List.getElem?_append_left (Nat.not_le.mp hlater)] at hn

/-- Every line drawn holds. -/
theorem Draws.holds
    (h : Draws g V i n ps V₁ ls) (hi : V[i]? = some n) :
  ∀ l ∈ ls, l.Holds g V₁
  := by
  induction h with
  | nil => simp
  | @seen V V₁ i n m p ps ls hp hm hrest ih =>
      intro l hl
      obtain rfl | hl := List.mem_cons.mp hl
      · exact ⟨n, m, getElem?_of_isPrefix hrest.isPrefix hi,
          getElem?_of_isPrefix hrest.isPrefix (getElem?_idxOf hm), hp⟩
      · apply ih hi l hl
  | @fresh V V₁ V₂ i n m p ps ls₁ ls₂ hp hm hbehind hrest ihbehind ihrest =>
      have hm₂ := getElem?_of_append_isPrefix (hbehind.isPrefix.trans hrest.isPrefix)
      have hi₁ := getElem?_of_isPrefix ((List.prefix_append _ _).trans hbehind.isPrefix) hi
      simp only [List.cons_append, List.mem_cons, List.mem_append]
      rintro l (rfl | hl | rfl | hl)
      · exact ⟨m, hm₂, rfl⟩
      · apply (ihbehind (by simp) l hl).mono hrest.isPrefix
      · exact ⟨n, m, getElem?_of_isPrefix hrest.isPrefix hi₁, hm₂, hp⟩
      · apply ihrest hi₁ l hl

/-- Every exit which is followed gets its arrow, and every node entered is drawn. -/
theorem Draws.complete
    (h : Draws g V i n ps V₁ ls) :
  (∀ p ∈ ps, HasArrow g V₁ ls i n p)
    ∧ ∀ k m, V.length ≤ k → V₁[k]? = some m → IsDrawn g V₁ ls k m
  := by
  induction h with
  | nil =>
      constructor
      · simp
      · intro k m hk hm
        rw [List.getElem?_eq_none hk] at hm
        contradiction
  | @seen V V₁ i n m p ps ls hp hm hrest ih =>
      obtain ⟨harrows, hnodes⟩ := ih
      have hls : ls ⊆ .arrow i p (V.idxOf m) :: ls := List.subset_cons_self _ _
      constructor
      · intro q hq
        obtain rfl | hq := List.mem_cons.mp hq
        · exact ⟨m, _, hp, getElem?_of_isPrefix hrest.isPrefix (getElem?_idxOf hm),
            List.mem_cons_self⟩
        · apply (harrows q hq).mono List.prefix_rfl hls
      · intro k k' hk hk'
        apply (hnodes k k' hk hk').mono List.prefix_rfl hls
  | @fresh V V₁ V₂ i n m p ps ls₁ ls₂ hp hm hbehind hrest ihbehind ihrest =>
      obtain ⟨harrows₁, hnodes₁⟩ := ihbehind
      obtain ⟨harrows₂, hnodes₂⟩ := ihrest
      have hm₂ := getElem?_of_append_isPrefix (hbehind.isPrefix.trans hrest.isPrefix)
      have hls₁ :
          ls₁ ⊆ .node V.length (g.content m).figure :: ls₁ ++ .arrow i p V.length :: ls₂ := by
        simp
      have hls₂ :
          ls₂ ⊆ .node V.length (g.content m).figure :: ls₁ ++ .arrow i p V.length :: ls₂ := by
        intro l hl
        simp [hl]
      constructor
      · intro q hq
        obtain rfl | hq := List.mem_cons.mp hq
        · exact ⟨m, _, hp, hm₂, by simp⟩
        · apply (harrows₂ q hq).mono List.prefix_rfl hls₂
      · intro k k' hk hk'
        obtain ⟨rfl, rfl⟩ | ⟨hbefore, hk₁⟩ | hlater :=
          place_cases hbehind.isPrefix hrest.isPrefix hk hk'
        · exact ⟨by simp, fun q hq => (harrows₁ q hq).mono hrest.isPrefix hls₁⟩
        · apply (hnodes₁ k k' hbefore hk₁).mono hrest.isPrefix hls₁
        · apply (hnodes₂ k k' hlater hk').mono List.prefix_rfl hls₂

/-- No node is entered twice. -/
theorem Draws.nodup
    (h : Draws g V i n ps V₁ ls) (hV : V.Nodup) :
  V₁.Nodup
  := by
  induction h with
  | nil => apply hV
  | seen _ _ _ ih => apply ih hV
  | fresh _ hm _ _ ihbehind ihrest =>
      apply ihrest
      apply ihbehind
      rw [← List.concat_eq_append]
      apply hV.concat hm

/-- Only nodes which can be reached are entered. -/
theorem Draws.reaches
    (h : Draws g V i n ps V₁ ls) (hn : g.Reaches .start n) (hV : ∀ k ∈ V, g.Reaches .start k) :
  ∀ k ∈ V₁, g.Reaches .start k
  := by
  induction h with
  | nil => apply hV
  | seen _ _ _ ih => apply ih hn hV
  | @fresh V V₁ V₂ i n m p ps ls₁ ls₂ hp hm hbehind hrest ihbehind ihrest =>
      have hreaches : g.Reaches .start m := hn.tail ⟨p, hp⟩
      apply ihrest hn
      apply ihbehind hreaches
      apply List.forall_mem_append.mpr ⟨hV, List.forall_mem_singleton.mpr hreaches⟩

/-- In a whole drawing, every node which has a number is drawn. -/
theorem Draws.isDrawn
    (h : Draws g [.start] 0 .start (g.exits .start) V ls) (hn : V[i]? = some n) :
  IsDrawn g V (.node 0 (g.content .start).figure :: ls) i n
  := by
  obtain ⟨hexits, hentered⟩ := h.complete
  have hls : ls ⊆ .node 0 (g.content .start).figure :: ls := List.subset_cons_self _ _
  cases i with
  | zero =>
      obtain rfl := Option.some.inj ((getElem?_of_isPrefix h.isPrefix rfl).symm.trans hn)
      use List.mem_cons_self
      intro p hp
      apply (hexits p hp).mono List.prefix_rfl hls
  | succ i => apply (hentered (i + 1) n (Nat.succ_pos i) hn).mono List.prefix_rfl hls

/-- If the nodes which have a number are drawn, whatever can be reached has a number. -/
theorem mem_of_reaches
    (hstart : V[0]? = some .start) (hdrawn : ∀ {i n}, V[i]? = some n → IsDrawn g V ls i n)
    (hn : g.Reaches .start n) :
  n ∈ V
  := by
  induction hn with
  | refl => apply List.mem_of_getElem? hstart
  | tail _ hedge ih =>
      obtain ⟨p, hp⟩ := hedge
      obtain ⟨i, hi⟩ := List.mem_iff_getElem?.mp ih
      obtain ⟨m, j, hp', hm, -⟩ := (hdrawn hi).2 p (FlowGraph.mem_exits_of_target? hp)
      rw [← Option.some.inj (hp'.symm.trans hp)]
      apply List.mem_of_getElem? hm

/-- If the nodes which have a number are drawn, and each has one number only, whatever holds is
drawn. -/
theorem Line.Holds.mem
    {l : Line} (hl : l.Holds g V) (hV : V.Nodup)
    (hdrawn : ∀ {i n}, V[i]? = some n → IsDrawn g V ls i n) :
  l ∈ ls
  := by
  cases l with
  | node i figure =>
      obtain ⟨n, hn, rfl⟩ := hl
      apply (hdrawn hn).1
  | arrow i p j =>
      obtain ⟨n, m, hn, hm, hp⟩ := hl
      obtain ⟨m', j', hp', hm', harrow⟩ := (hdrawn hn).2 p (FlowGraph.mem_exits_of_target? hp)
      obtain rfl := Option.some.inj (hp'.symm.trans hp)
      have hlt := (List.getElem?_eq_some_iff.mp hm).1
      rwa [(List.getElem?_inj hlt hV).mp (hm.trans hm'.symm)]

end Drawing

namespace FlowGraph

open Drawing

variable {g : FlowGraph} {V : List Node} {ls : List Line}

/-- `V` lists the nodes which can be reached from the start, the start first, and `ls` draws them
with their places in `V` as numbers. -/
structure Numbers (g : FlowGraph) (V : List Node) (ls : List Line) : Prop where
  nodup : V.Nodup
  start : V[0]? = some .start
  mem_iff : ∀ n, n ∈ V ↔ g.Reaches .start n
  lines : ∀ l, l ∈ ls ↔ l.Holds g V

/-- A whole drawing numbers the nodes which can be reached from the start, and its lines are those
which hold for these numbers. -/
theorem numbers_of_draws
    (h : Draws g [.start] 0 .start (g.exits .start) V ls) :
  g.Numbers V (.node 0 (g.content .start).figure :: ls)
  := by
  have hstart : V[0]? = some .start := getElem?_of_isPrefix h.isPrefix rfl
  have hnodup : V.Nodup := h.nodup (List.nodup_singleton _)
  refine ⟨hnodup, hstart, fun n => ⟨?_, ?_⟩, fun l => ⟨?_, ?_⟩⟩
  · apply h.reaches Relation.ReflTransGen.refl
    apply List.forall_mem_singleton.mpr Relation.ReflTransGen.refl
  · apply mem_of_reaches hstart h.isDrawn
  · intro hl
    obtain rfl | hl := List.mem_cons.mp hl
    · exact ⟨.start, hstart, rfl⟩
    · apply h.holds rfl l hl
  · intro hl
    apply hl.mem hnodup h.isDrawn

/-- Every drawing numbers the nodes which can be reached from the start, and its lines are those
which hold for these numbers. -/
theorem exists_numbers
    (h : g.drawing = .ok ls) :
  ∃ V, g.Numbers V ls
  := by
  obtain ⟨V, ls₁, hdraws, rfl⟩ := exists_draws h
  exact ⟨V, numbers_of_draws hdraws⟩

end FlowGraph

end MethodFlow
