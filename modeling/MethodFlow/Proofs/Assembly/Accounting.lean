import MethodFlow.Proofs.Assembly.Steps

/-!
# Every slot is accounted for

While code is emitted, every slot of a node made so far leads somewhere, or is open, or belongs to
the node which is being made and was not dealt with yet: `Assembly.Accounted`.  Each operation of an
assembly keeps that, so no slot is forgotten on the way (`Assembly.Accounted.emitAll`), and no slot
leads out of the graph or to its start.
-/

namespace MethodFlow

open LinearCode

/-- A node of the graph other than the start. -/
def FlowGraph.IsTarget (g : FlowGraph) (n : Node) : Prop :=
  n ∈ g.nodes ∧ n ≠ .start

namespace Assembly

variable {a a' : Assembly} {free : List Slot} {c : Content} {g : FlowGraph} {l : Label} {s : Slot}
  {n b : Node}

/-- Every slot is set, open, or one of the slots `free`.  Slots lead and labels are bound to nodes
of the graph other than the start. -/
structure Accounted (a : Assembly) (free : List Slot) : Prop where
  slot : ∀ s : Slot, s.exit ∈ a.graph.exits s.node →
    (∃ m, (a.graph.content s.node).target? s.exit = some m) ∨ s ∈ a.openSlots ∨ s ∈ free
  target : ∀ (s : Slot) m, (a.graph.content s.node).target? s.exit = some m → a.graph.IsTarget m
  bound : ∀ l n, a.node? l = some n → a.graph.IsTarget n

theorem isTarget_stop
    (g : FlowGraph) :
  g.IsTarget .stop
  := by
  simp [FlowGraph.IsTarget, FlowGraph.nodes]

theorem isTarget_of_size_le
    {g g' : FlowGraph} (h : g.cells.size ≤ g'.cells.size) (hn : g.IsTarget n) :
  g'.IsTarget n
  := ⟨FlowGraph.mem_nodes_of_size_le h hn.1, hn.2⟩

/-- At the beginning, the slot of the start is open, and there is no other slot. -/
theorem accounted_initial
    (parameters : List Parameter) :
  (initial parameters).Accounted []
  := by
  constructor
  · rintro ⟨n, p⟩ hp
    cases n with
    | start =>
        obtain rfl := List.mem_singleton.mp hp
        right
        left
        apply List.mem_singleton_self
    | stop => contradiction
    | inner i => contradiction
  · rintro ⟨n, p⟩ m hm
    cases n <;> cases p <;> contradiction
  · intro l n hn
    contradiction

/-- The cursor may be moved if what it leaves open is accounted for otherwise. -/
theorem Accounted.moveTo
    (h : a.Accounted free) (cursor : Cursor) {free' : List Slot}
    (hopen : ∀ s, s ∈ a.openSlots ∨ s ∈ free → s ∈ (a.moveTo cursor).openSlots ∨ s ∈ free') :
  (a.moveTo cursor).Accounted free'
  where
  slot s hs := (h.slot s hs).imp_right (hopen s)
  target := h.target
  bound := h.bound

/-! ### Single operations -/

/-- Where the cursor has entered a node and left it again, the slots of the nodes there were are
accounted for; those of a new node are free. -/
theorem Accounted.landed
    (h : a.Accounted []) (hsize : a.graph.cells.size ≤ g.cells.size) (hn : g.IsTarget n)
    (hkind : ∀ m ∈ a.graph.nodes, g.kind m = a.graph.kind m)
    (hled : ∀ s, a.Enters s → (g.content s.node).target? s.exit = some n)
    (hkept : ∀ s, s.node ∈ a.graph.nodes → ¬ a.Enters s →
      (g.content s.node).target? s.exit = (a.graph.content s.node).target? s.exit)
    (hnew : ∀ s, s.node ∉ a.graph.nodes → s.exit ∈ g.exits s.node →
      s ∈ free ∧ (g.content s.node).target? s.exit = none) :
  ((a.landed n g).moveTo .nowhere).Accounted free
  := by
  constructor
  · intro s hs
    by_cases hold : s.node ∈ a.graph.nodes
    · by_cases henters : a.Enters s
      · exact Or.inl ⟨n, hled s henters⟩
      · have hs' : s.exit ∈ a.graph.exits s.node := by
          rw [FlowGraph.exits, ← hkind s.node hold]
          apply hs
        obtain ⟨m, hm⟩ | hopen | ⟨⟨⟩⟩ := h.slot s hs'
        · left
          use m
          apply (hkept s hold henters).trans hm
        · right
          left
          rw [mem_openSlots] at hopen ⊢
          right
          obtain hfalls | ⟨l, hl⟩ := hopen
          · exact absurd (Or.inl hfalls) henters
          · have hplaced : l ∉ a.cursor.placed := fun h => henters (Or.inr ⟨l, h, hl⟩)
            use l
            apply List.mem_filter.mpr ⟨hl, decide_eq_true hplaced⟩
    · right
      right
      apply (hnew s hold hs).1
  · intro s m hm
    by_cases hold : s.node ∈ a.graph.nodes
    · by_cases henters : a.Enters s
      · obtain rfl := Option.some.inj ((hled s henters).symm.trans hm)
        apply hn
      · apply isTarget_of_size_le hsize (h.target s m ((hkept s hold henters).symm.trans hm))
    · have hnone := (hnew s hold (FlowGraph.mem_exits_of_target? hm)).2
      have hsome := hnone.symm.trans hm
      contradiction
  · intro l m hm
    rw [node?_moveTo, node?_landed] at hm
    split at hm
    · obtain rfl := Option.some.inj hm
      apply hn
    · apply isTarget_of_size_le hsize (h.bound l m hm)

/-- When a new node has been entered and left, exactly its own slots are free. -/
theorem Grown.accounted
    (hgrown : a.Grown c g) (h : a.Accounted []) :
  ((a.landed a.next g).moveTo .nowhere).Accounted (c.kind.exits.map (⟨a.next, ·⟩))
  := by
  have hsize : a.graph.cells.size ≤ g.cells.size := by
    rw [hgrown.size]
    apply Nat.le_succ
  apply h.landed hsize _ hgrown.kind hgrown.led hgrown.kept
  · rintro ⟨m, p⟩ hold hp
    have hm := FlowGraph.mem_nodes_of_mem_exits hp
    obtain rfl := hgrown.eq_next hold hm
    rw [FlowGraph.exits, hgrown.kind_next] at hp
    exact ⟨List.mem_map_of_mem hp, hgrown.unset_next p⟩
  · constructor
    · rw [next, FlowGraph.inner_mem_nodes_iff, hgrown.size]
      apply Nat.lt_succ_self
    · simp [next]

/-- A free slot which is led to a node is free no more. -/
theorem Accounted.redirect
    (h : a.Accounted (s :: free)) (hs : s.exit ∈ a.graph.exits s.node)
    (hn : a.graph.IsTarget n) :
  Accounted { a with graph := a.graph.redirect s n } free
  := by
  have hrewired := FlowGraph.rewired_redirect hs n
  have hsize := Nat.le_of_eq hrewired.size.symm
  constructor
  · intro s' hs'
    by_cases heq : s' = s
    · left
      exact ⟨n, hrewired.led s' heq⟩
    · rw [FlowGraph.exits, hrewired.kind] at hs'
      obtain ⟨m, hm⟩ | hopen | hfree := h.slot s' hs'
      · left
        use m
        apply (hrewired.kept s' heq).trans hm
      · right
        left
        apply hopen
      · right
        right
        apply List.mem_of_ne_of_mem heq hfree
  · intro s' m hm
    apply isTarget_of_size_le hsize
    by_cases heq : s' = s
    · obtain rfl := Option.some.inj ((hrewired.led s' heq).symm.trans hm)
      apply hn
    · apply h.target s' m ((hrewired.kept s' heq).symm.trans hm)
  · intro l m hm
    apply isTarget_of_size_le hsize (h.bound l m hm)

/-- A free slot which waits for a label is free no more. -/
theorem Accounted.defer
    (h : a.Accounted (s :: free)) (l : Label) :
  Accounted { a with deferred := a.deferred ++ [(l, s)] } free
  where
  slot s' hs' := by
    apply (h.slot s' hs').imp_right
    rintro (hopen | hfree)
    · left
      simp only [openSlots, List.map_append, ← List.append_assoc]
      apply List.mem_append_left _ hopen
    · obtain rfl | hfree := List.mem_cons.mp hfree
      · left
        simp [openSlots]
      · right
        apply hfree
  target := h.target
  bound := h.bound

theorem Accounted.refer
    (h : (a.moveTo .nowhere).Accounted (s :: free)) (hrefer : a.refer l s = .ok a') :
  (a'.moveTo .nowhere).Accounted free
  := by
  obtain ⟨n, hn, hexit, rfl⟩ | rfl := refer_cases hrefer
  · apply Accounted.redirect h hexit (h.bound l n hn)
  · apply Accounted.defer h l

/-- An action more changes no slot. -/
theorem Accounted.extend
    (h : a.Accounted free) (b : Node) (x : Action) :
  Accounted { a with graph := a.graph.extend b x } free
  := by
  have hsize := Nat.le_of_eq (a.graph.cells_size_extend b x).symm
  constructor
  · intro s hs
    rw [FlowGraph.exits, FlowGraph.kind_extend] at hs
    rw [FlowGraph.target?_extend]
    apply h.slot s hs
  · intro s m hm
    rw [FlowGraph.target?_extend] at hm
    apply isTarget_of_size_le hsize (h.target s m hm)
  · intro l n hn
    apply isTarget_of_size_le hsize (h.bound l n hn)

/-- In the block which is opened, the cursor leaves every slot accounted for. -/
theorem Accounted.openBlock
    (hsound : a.Sound) (h : a.Accounted []) (hopen : a.openBlock = .ok (b, a')) :
  (a'.moveTo (.inside b)).Accounted []
  := by
  obtain ⟨hcursor, rfl⟩ | ⟨g, -, hgrown, rfl, rfl⟩ := hsound.openBlock_cases hopen
  · rw [Assembly.moveTo, ← hcursor]
    apply h
  · apply (hgrown.accounted h).moveTo (.inside a.next)
    rintro s (hs | hs)
    · left
      apply List.mem_cons_of_mem _ hs
    · left
      obtain rfl := List.mem_singleton.mp hs
      apply List.mem_cons_self

/-- Where the cursor leaves a block, the slot of the block is free. -/
theorem Accounted.leave
    (h : (a.moveTo (.inside b)).Accounted []) :
  (a.moveTo .nowhere).Accounted [⟨b, .next⟩]
  := by
  apply Accounted.moveTo h .nowhere
  rintro s (hs | hs)
  · obtain rfl | hs := List.mem_cons.mp hs
    · right
      apply List.mem_singleton_self
    · left
      apply hs
  · contradiction

/-! ### Code -/

/-- An action leaves every slot accounted for. -/
theorem Accounted.emit_act
    (hsound : a.Sound) (h : a.Accounted []) {x : Action} (hemit : a.emit (.act x) = .ok a') :
  a'.Accounted []
  := by
  obtain ⟨b, a₁, hopen, ⟨-, rfl⟩ | ⟨-, hexit, rfl⟩⟩ := emit_act_cases hemit
  · apply (h.openBlock hsound hopen).extend b x
  · have hinside := (h.openBlock hsound hopen).extend b x
    have hleft := Accounted.leave (a := { a₁ with graph := a₁.graph.extend b x }) hinside
    apply hleft.redirect _ (isTarget_stop _)
    change .next ∈ (a₁.graph.extend b x).exits b
    rwa [FlowGraph.exits, FlowGraph.kind_extend]

theorem Accounted.emit_branch
    (hsound : a.Sound) (h : a.Accounted []) {x : Expr} {ifTrue ifFalse : Label}
    (hemit : a.emit (.branch x ifTrue ifFalse) = .ok a') :
  a'.Accounted []
  := by
  obtain ⟨g, a₁, a₂, hgrown, htrue, hfalse, rfl⟩ := hsound.emit_branch_cases hemit
  apply Accounted.refer _ hfalse
  apply Accounted.refer _ htrue
  apply hgrown.accounted h

theorem Accounted.emit_jump
    (hsound : a.Sound) (h : a.Accounted []) (hemit : a.emit (.jump l) = .ok a') :
  a'.Accounted []
  := by
  obtain ⟨-, rfl⟩ | ⟨b, a₁, a₂, hopen, hrefer, rfl⟩ := emit_jump_cases hemit
  · apply h
  · apply Accounted.refer (h.openBlock hsound hopen).leave hrefer

/-- Every instruction leaves every slot accounted for. -/
theorem Accounted.emit
    (hsound : a.Sound) (h : a.Accounted []) {i : Instruction} (hemit : a.emit i = .ok a') :
  a'.Accounted []
  := by
  cases i with
  | place l =>
      cases hemit
      apply h.moveTo
      exact fun s hs => hs
  | act x => apply h.emit_act hsound hemit
  | branch x ifTrue ifFalse => apply h.emit_branch hsound hemit
  | jump l => apply h.emit_jump hsound hemit

/-- Code of any length leaves every slot accounted for. -/
theorem Accounted.emitAll
    (hsound : a.Sound) (h : a.Accounted []) {code : List Instruction}
    (hemit : a.emitAll code = .ok a') :
  a'.Accounted []
  := by
  induction code generalizing a with
  | nil =>
      cases hemit
      apply h
  | cons i code ih =>
      obtain ⟨a₁, hfirst, hsound₁, -⟩ := hsound.emit i
      rw [Assembly.emitAll, List.foldlM_cons, hfirst] at hemit
      apply ih hsound₁ (h.emit hsound hfirst) hemit

end Assembly

end MethodFlow
