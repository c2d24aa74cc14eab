import MethodFlow.Proofs.Bypass.Meaning
import MethodFlow.Proofs.Graph.Dominance
import MethodFlow.Proofs.Graph.Unvisited

/-!
# What a visit of the walk leaves behind

A slot is left leading to an empty block only if the block was on the path each time the slot was
followed.  So behind a visit every slot which can be reached off the path along a route which avoids
an empty block passes that block (`Bypass.Swept`).  A step of the walk leaves that behind if the
visits behind it do (`Bypass.visitorSweeps_step`), and so does a visit of any depth
(`Bypass.visitorSweeps_nest`).
-/

namespace MethodFlow

namespace FlowGraph

variable {g g' g'' : FlowGraph} {e k m n : Node} {s : Slot} {path : List Node}

/-- No empty block which can be reached leads over empty blocks back to itself. -/
def SkipsAcyclic (g : FlowGraph) : Prop :=
  ∀ n, g.Reaches .start n → ¬ Relation.TransGen g.Skips n n

/-- In `g'`, the slot leads to no node which slides to `e` over the empty blocks of `g`. -/
def Passes (g g' : FlowGraph) (e : Node) (s : Slot) : Prop :=
  ∀ m, (g'.content s.node).target? s.exit = some m → ¬ g.Slides m e

theorem Passes.shortcut
    (h : g.Passes g' e s) (hshort : g.Shortcut g') (hlater : g'.Shortcut g'') :
  g.Passes g'' e s
  := by
  intro m hm hslide
  obtain ⟨k, hk, hslide'⟩ := hlater.exists_of_target? hm
  rw [hshort.slides_eq] at hslide'
  apply h k hk (Relation.ReflTransGen.trans hslide' hslide)

/-- Where a slot leads to an empty block on a path which is settled, it passes the empty blocks off
the path. -/
theorem passes_of_arrives
    (hsettled : ∀ m, g.Settled path m) (he : (g.content e).isEmptyBlock) (hpath : e ∉ path)
    (h : ∀ m, (g'.content s.node).target? s.exit = some m → (g.content m).isEmptyBlock → m ∈ path) :
  g.Passes g' e s
  := by
  intro m hm hslide
  by_cases hempty : (g.content m).isEmptyBlock
  · apply hpath
    apply (hsettled m).mem_of_slides (h m hm hempty) hslide
  · rw [hslide.eq_of_not_isEmptyBlock hempty] at he
    apply hempty he

end FlowGraph

namespace Bypass

open Walk

variable {g : FlowGraph} {path : List Node} {reached : Slot} {n m k e : Node}
  {s s' : Progress Path Work} {visit : Slot × Node → Run Unit}

/-! ### What a visit leaves behind -/

/-- What a visit of `n` through a slot leaves behind, where `g` is the graph before the walk and
`path` leads to `n`. -/
structure Swept (g : FlowGraph) (path : List Node) (reached : Slot) (n : Node)
    (s s' : Progress Path Work) : Prop where
  trail : s'.trail = s.trail
  shortcut : s.work.graph.Shortcut s'.work.graph
  /-- The slot is led to a node which is no empty block, or back to the path. -/
  arrives : ∀ m, (s'.work.graph.content reached.node).target? reached.exit = some m →
    (g.content m).isEmptyBlock → m ∈ path
  /-- The slots of every node which can be reached off the path without an empty block pass that
  block. -/
  clears : ∀ k e, ¬ (g.content k).isEmptyBlock → (g.content e).isEmptyBlock → e ∉ path →
    g.ReachesIn (fun i => i ∉ path ∧ i ≠ e) n k → ∀ q, g.Passes s'.work.graph e ⟨k, q⟩

/-- What following some exits of `n` leaves behind, where `path` leads through `n`. -/
structure Followed (g : FlowGraph) (path : List Node) (n : Node) (exits : List Exit)
    (s s' : Progress Path Work) : Prop where
  trail : s'.trail = s.trail
  shortcut : s.work.graph.Shortcut s'.work.graph
  own : ∀ p ∈ exits, ∀ e, (g.content e).isEmptyBlock → e ∉ path →
    g.Passes s'.work.graph e ⟨n, p⟩
  clears : ∀ p ∈ exits, ∀ j, (g.content n).target? p = some j →
    ∀ k e, ¬ (g.content k).isEmptyBlock → (g.content e).isEmptyBlock → e ∉ path →
      g.ReachesIn (fun i => i ∉ path ∧ i ≠ e) j k → ∀ q, g.Passes s'.work.graph e ⟨k, q⟩

/-- The visitor comes to its end and leaves behind what it should, wherever `path` leads to. -/
def VisitorSweeps (g : FlowGraph) (path : List Node) (visit : Slot × Node → Run Unit) : Prop :=
  ∀ reached n s, Ready s reached n → s.trail.nodes = path → g.Shortcut s.work.graph →
    g.Reaches .start n → g.Settled path n →
      ∃ s', visit (reached, n) s = .ok () s' ∧ Swept g path reached n s s'

/-- Following one more exit. -/
theorem Followed.cons
    {p : Exit} {exits : List Exit} {s₁ s₂ : Progress Path Work}
    (hshort : g.Shortcut s.work.graph) (hsettled : ∀ m, g.Settled path m) {j : Node}
    (hj : (g.content n).target? p = some j) (hslide : g.Slides j m)
    (h : Swept g path ⟨n, p⟩ m s s₁) (hrest : Followed g path n exits s₁ s₂) :
  Followed g path n (p :: exits) s s₂
  where
  trail := hrest.trail.trans h.trail
  shortcut := h.shortcut.trans hrest.shortcut
  own p' hp' e he hpath := by
    obtain rfl | hp' := List.mem_cons.mp hp'
    · apply FlowGraph.Passes.shortcut _ (hshort.trans h.shortcut) hrest.shortcut
      apply FlowGraph.passes_of_arrives hsettled he hpath h.arrives
    · apply hrest.own p' hp' e he hpath
  clears p' hp' j' hj' k e hk he hpath hreaches q := by
    obtain rfl | hp' := List.mem_cons.mp hp'
    · rw [hj] at hj'
      obtain rfl := Option.some.inj hj'
      apply FlowGraph.Passes.shortcut _ (hshort.trans h.shortcut) hrest.shortcut
      apply h.clears k e hk he hpath (hreaches.of_slides hslide hk)
    · apply hrest.clears p' hp' j' hj' k e hk he hpath hreaches

/-- Following exits of a node which is no empty block comes to its end. -/
theorem exists_followed
    (hwired : g.Wired) (hvisit : n ∈ g.nodes → VisitorSweeps g path visit)
    (hn : ¬ (g.content n).isEmptyBlock) (hreaches : g.Reaches .start n)
    (hsettled : ∀ m, g.Settled path m) {exits : List Exit} (hexits : exits ⊆ g.exits n)
    (htrail : s.trail.nodes = path) (hshort : g.Shortcut s.work.graph) :
  ∃ s', (forM exits fun p => do visit (⟨n, p⟩, ← target ⟨n, p⟩) : Run Unit) s = .ok () s'
    ∧ Followed g path n exits s s'
  := by
  induction exits generalizing s with
  | nil =>
      use s, rfl
      constructor
      · rfl
      · apply FlowGraph.Shortcut.refl
      · intro p hp
        contradiction
      · intro p hp
        contradiction
  | cons p exits ih =>
      obtain ⟨hp, hexits⟩ := List.cons_subset.mp hexits
      obtain ⟨j, hj⟩ := hwired n hreaches p hp
      obtain ⟨m, hm, hslide⟩ := hshort.exists_target? hj
      have hready : Ready s ⟨n, p⟩ m := ⟨hm, by rwa [hshort.isEmptyBlock_iff]⟩
      have hreaches' : g.Reaches .start m :=
        Relation.ReflTransGen.trans (hreaches.tail ⟨p, hj⟩) hslide.reaches
      obtain ⟨s₁, hs₁, hswept⟩ := hvisit (FlowGraph.mem_nodes_of_mem_exits hp) ⟨n, p⟩ m s hready
        htrail hshort hreaches' (hsettled m)
      obtain ⟨s₂, hs₂, hfollowed⟩ := ih hexits (hswept.trail ▸ htrail)
        (hshort.trans hswept.shortcut)
      use s₂
      constructor
      · rw [List.forM_cons, bind_apply, target_bind_apply hm, hs₁]
        apply hs₂
      · apply Followed.cons hshort hsettled hj hslide hswept hfollowed

/-- Following all exits of a node which is no empty block comes to its end. -/
theorem exists_followAll
    (hwired : g.Wired) (hvisit : n ∈ g.nodes → VisitorSweeps g path visit)
    (hn : ¬ (g.content n).isEmptyBlock) (hreaches : g.Reaches .start n)
    (hsettled : ∀ m, g.Settled path m) (htrail : s.trail.nodes = path)
    (hshort : g.Shortcut s.work.graph) :
  ∃ s', followAll visit n s = .ok () s' ∧ Followed g path n (g.exits n) s s'
  := by
  obtain ⟨s', hs', hfollowed⟩ := exists_followed hwired hvisit hn hreaches hsettled
    (List.Subset.refl (g.exits n)) htrail hshort
  use s'
  constructor
  · rw [← hshort.exits] at hs'
    apply hs'
  · apply hfollowed

/-- Once all exits of a node were followed, the slots behind the node pass the empty blocks which
can be avoided on the way. -/
theorem Followed.passes
    (h : Followed g (n :: path) n (g.exits n) s s') (hshort : g.Shortcut s.work.graph)
    (hk : ¬ (g.content k).isEmptyBlock) (he : (g.content e).isEmptyBlock) (hpath : e ∉ n :: path)
    (hreaches : g.ReachesIn (fun i => i ∉ path ∧ i ≠ e) n k) (p : Exit) :
  g.Passes s'.work.graph e ⟨k, p⟩
  := by
  obtain rfl | ⟨j, ⟨q, hq⟩, hbehind⟩ := hreaches.cut
  · intro m hm
    have hp : p ∈ g.exits k := by
      rw [← (hshort.trans h.shortcut).exits]
      apply FlowGraph.mem_exits_of_target? hm
    apply h.own p hp e he hpath m hm
  · apply h.clears q (FlowGraph.mem_exits_of_target? hq) j hq k e hk he hpath
    apply hbehind.mono
    intro i hi
    rw [List.mem_cons, not_or]
    exact ⟨⟨hi.2, hi.1.1⟩, hi.1.2⟩

/-- What following all exits of a node leaves behind is what the visit of the node leaves behind. -/
theorem Followed.swept
    (h : Followed g (n :: path) n (g.exits n) s s') (hn : ¬ (g.content n).isEmptyBlock)
    {s₀ s₁ : Progress Path Work} (hready : Ready s₀ reached n) (hshort : g.Shortcut s₀.work.graph)
    (hs : s.work = s₀.work) (hs' : s₁.work = s'.work) (htrail : s₁.trail = s₀.trail) :
  Swept g path reached n s₀ s₁
  := by
  have hlater : s₀.work.graph.Shortcut s₁.work.graph := by
    rw [← hs, hs']
    apply h.shortcut
  constructor
  · apply htrail
  · apply hlater
  · intro m hm hempty
    obtain ⟨k, hk, hslide⟩ := hlater.exists_of_target? hm
    rw [hready.target?] at hk
    obtain rfl := Option.some.inj hk
    rw [hshort.slides_eq] at hslide
    rw [hslide.eq_of_not_isEmptyBlock hn] at hempty
    exact absurd hempty hn
  · intro k e hk he hpath hreaches p
    rw [hs']
    apply h.passes (hs ▸ hshort) hk he _ hreaches
    rw [List.mem_cons, not_or]
    use fun heq => hn (heq ▸ he)

/-- Going around an empty block and on to the next node leaves behind what the visit of the block
leaves behind. -/
theorem Swept.around
    {s₀ s₁ : Progress Path Work} (h : Swept g (n :: path) reached m s s')
    (hcycle : ¬ Relation.TransGen g.Skips n n) (hskip : g.Skips n m)
    (hready : Ready s reached m) (hshort : g.Shortcut s.work.graph)
    (hs : s₀.work.graph.Shortcut s.work.graph) (hs' : s₁.work = s'.work)
    (htrail : s₁.trail = s₀.trail) :
  Swept g path reached n s₀ s₁
  where
  trail := htrail
  shortcut := by
    rw [hs']
    apply hs.trans h.shortcut
  arrives k hk hempty := by
    rw [hs'] at hk
    obtain rfl | hk' := List.mem_cons.mp (h.arrives k hk hempty)
    · -- the block would slide back to itself
      obtain ⟨j, hj, hslide⟩ := h.shortcut.exists_of_target? hk
      rw [hready.target?] at hj
      obtain rfl := Option.some.inj hj
      rw [hshort.slides_eq] at hslide
      exact absurd (Relation.TransGen.head' hskip hslide) hcycle
    · apply hk'
  clears k e hk he hpath hreaches q := by
    rw [hs']
    have hne : e ≠ n := fun heq => hreaches.left.2 heq.symm
    have hpath' : e ∉ n :: path := by
      rw [List.mem_cons, not_or]
      exact ⟨hne, hpath⟩
    apply h.clears k e hk he hpath'
    obtain rfl | ⟨j, ⟨p, hp⟩, hbehind⟩ := hreaches.cut
    · exact absurd hskip.1 hk
    · rw [hskip.unique (FlowGraph.skips_of_target? hskip.1 hp)]
      apply hbehind.mono
      intro i hi
      simp only [List.mem_cons, not_or]
      exact ⟨⟨hi.2, hi.1.1⟩, hi.1.2⟩

/-- Going around an empty block comes to its end. -/
theorem exists_around
    (hwired : g.Wired) (hvisit : n ∈ g.nodes → VisitorSweeps g (n :: path) visit)
    (hempty : (g.content n).isEmptyBlock) (hreaches : g.Reaches .start n)
    (hsettled : g.Settled path n) (hready : Ready s reached n) (htrail : s.trail.nodes = n :: path)
    (hshort : g.Shortcut s.work.graph) :
  ∃ m s₀ s', g.Skips n m ∧ Ready s₀ reached m ∧ s.work.graph.Shortcut s₀.work.graph
    ∧ (do
      let m ← target ⟨n, .next⟩
      redirect reached m
      count n
      visit (reached, m) : Run Unit) s = .ok () s'
    ∧ s'.trail = s.trail ∧ Swept g (n :: path) reached m s₀ s'
  := by
  have hexit : Exit.next ∈ g.exits n := by
    rw [FlowGraph.exits_of_isEmptyBlock hempty]
    apply List.mem_singleton_self
  obtain ⟨m, hm⟩ := hwired n hreaches .next hexit
  have hskip : g.Skips n m := ⟨hempty, hm⟩
  have hskip' : s.work.graph.Skips n m := hshort.skips_iff.mpr hskip
  have haround := hready.shortcut_around hskip'
  obtain ⟨s', hs', hswept⟩ := hvisit (FlowGraph.mem_nodes_of_mem_exits hexit) reached m
    (around s reached n m) (hready.around hskip') htrail (hshort.trans haround)
    (hreaches.tail ⟨.next, hm⟩) (hsettled.cons fun _ => hskip)
  use m, around s reached n m, s', hskip, hready.around hskip', haround
  constructor
  · rw [around_apply hready hskip']
    apply hs'
  · use hswept.trail

/-- At a node which the trail lets in, a step goes around the node if it is an empty block, and
otherwise follows its exits. -/
theorem step_of_entered
    (reached : Slot) {trail : Path} {t : Progress Path Work}
    (htrail : Trail.enter? n s.trail = some trail)
    (h : (if (s.work.graph.content n).isEmptyBlock then do
        let m ← target ⟨n, .next⟩
        redirect reached m
        count n
        visit (reached, m)
      else
        followAll visit n : Run Unit) { s with trail } = .ok () t) :
  step visit (reached, n) s = .ok () { t with trail := Trail.leave n t.trail }
  := by
  have hcurrent : current { s with trail } = .ok s.work.graph { s with trail } := rfl
  rw [step, node_of_entered htrail, bind_apply, hcurrent]
  dsimp only
  rw [h]

/-- A step comes to its end and leaves behind what it should if the visits behind it do. -/
theorem visitorSweeps_step
    (hwired : g.Wired) (hcycle : g.SkipsAcyclic)
    (hvisit : ∀ n, n ∉ path → n ∈ g.nodes → VisitorSweeps g (n :: path) visit) :
  VisitorSweeps g path (step visit)
  := by
  intro reached n s hready htrail hshort hreaches hsettled
  by_cases hmem : n ∈ path
  · have hrefused : Trail.enter? n s.trail = none := by
      rw [Path.enter?_eq, htrail, if_pos hmem]
    use s, node_of_refused hrefused
    constructor
    · rfl
    · apply FlowGraph.Shortcut.refl
    · intro m hm _
      rw [hready.target?] at hm
      rwa [← Option.some.inj hm]
    · intro k e _ _ _ hbehind
      exact absurd hmem hbehind.left.1
  · have hentered : Trail.enter? n s.trail = some ⟨n :: path⟩ := by
      rw [Path.enter?_eq, htrail, if_neg hmem]
    have hleave : Trail.leave n (⟨n :: path⟩ : Path) = s.trail := Path.leave_of_enter? hentered
    by_cases hempty : (g.content n).isEmptyBlock
    · have hready' : Ready { s with trail := ⟨n :: path⟩ } reached n :=
        ⟨hready.target?, hready.not_isEmptyBlock⟩
      obtain ⟨m, s₀, s', hskip, hready₀, hs₀, hs', htrail', hswept⟩ :=
        exists_around hwired (hvisit n hmem) hempty hreaches hsettled hready' rfl hshort
      use { s' with trail := Trail.leave n s'.trail }
      constructor
      · apply step_of_entered reached hentered
        rw [if_pos ((hshort.isEmptyBlock_iff n).mpr hempty)]
        apply hs'
      · refine hswept.around (hcycle n hreaches) hskip hready₀ (hshort.trans hs₀) hs₀ rfl ?_
        rw [htrail', hleave]
    · obtain ⟨s', hs', hfollowed⟩ := exists_followAll hwired (hvisit n hmem) hempty hreaches
        (fun m => hsettled.cons fun h => absurd h hempty) rfl hshort
        (s := { s with trail := ⟨n :: path⟩ })
      use { s' with trail := Trail.leave n s'.trail }
      constructor
      · apply step_of_entered reached hentered
        rw [if_neg (mt (hshort.isEmptyBlock_iff n).mp hempty)]
        apply hs'
      · refine hfollowed.swept hempty hready hshort rfl rfl ?_
        rw [hfollowed.trail, hleave]

/-- Visits nested deeper than there are nodes off the path come to their end and leave behind what
they should. -/
theorem visitorSweeps_nest
    (hwired : g.Wired) (hcycle : g.SkipsAcyclic) {depth : Nat}
    (h : g.unvisited path < depth) :
  VisitorSweeps g path (Walk.nest step depth)
  := by
  induction depth generalizing path with
  | zero => exact absurd h (Nat.not_lt_zero _)
  | succ depth ih =>
      apply visitorSweeps_step hwired hcycle
      intro n hpath hmem
      have hlt := FlowGraph.unvisited_cons_lt hmem hpath
      apply ih
      omega

end Bypass

end MethodFlow
