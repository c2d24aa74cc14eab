import MethodFlow.Proofs.Assembly.Wiring
import MethodFlow.Proofs.Graph.Unvisited
import MethodFlow.Proofs.LinearCode.Run

/-!
# What becomes of an assembly

While code is emitted, `Assembly.home` tells to which node a label leads from the cursor on, and
`Assembly.Promises` to which node a slot will have been led in the end.  `Assembly.Sound` is the
invariant of the construction, and `Assembly.Evolves` says what an assembly keeps while code is
emitted: homes change only where a label is placed, promises are kept, and a block is not changed
any more once the cursor has left it.
-/

namespace MethodFlow

open LinearCode

/-- Where the code `rest` comes to when `size` inner nodes have been made: to the next node, or to
the stop if no node is made any more. -/
def LinearCode.landing : List Instruction → Nat → Node
  | [], _ => .stop
  | .place _ :: rest, size => landing rest size
  | _ :: _, size => .inner size

theorem LinearCode.landing_cons
    {i : Instruction} (hi : i.placed = []) (rest : List Instruction) (size : Nat) :
  landing (i :: rest) size = .inner size
  := by
  cases i with
  | place l => contradiction
  | _ => rfl

/-- Code comes to the stop or to the next node. -/
theorem LinearCode.landing_eq
    (rest : List Instruction) (size : Nat) :
  landing rest size = .stop ∨ landing rest size = .inner size
  := by
  induction rest with
  | nil => exact Or.inl rfl
  | cons i rest ih =>
      cases i with
      | place l => apply ih
      | _ => exact Or.inr rfl

/-- The node `m` is the stop, or it was made later than `n`. -/
def Node.Precedes (n m : Node) : Prop :=
  m = .stop ∨ n.index < m.index

/-- What is made later comes after the nodes there are. -/
theorem precedes_landing
    {g : FlowGraph} {n : Node} {size : Nat} (hn : n ∈ g.nodes) (hsize : g.cells.size ≤ size)
    {rest : List Instruction} :
  n.Precedes (landing rest size)
  := by
  obtain h | h := landing_eq rest size
  · left
    apply h
  · right
    rw [h]
    cases n with
    | inner i =>
        rw [FlowGraph.inner_mem_nodes_iff] at hn
        simp only [Node.index]
        omega
    | _ => simp [Node.index]

namespace Assembly

variable {a a' a'' : Assembly} {code code' rest : List Instruction} {labels labels' : List Label}
  {l : Label} {s : Slot} {n b : Node}

/-- The slots which are to be led somewhere yet. -/
def openSlots (a : Assembly) : List Slot :=
  a.cursor.fallsFrom.toList ++ a.deferred.map (·.2)

/-- Every open slot exists, is not set and is open for one reason only; a label for which a slot
waits is not bound; and the cursor is inside of blocks only. -/
structure Sound (a : Assembly) : Prop where
  has : ∀ s ∈ a.openSlots, s.exit ∈ a.graph.exits s.node
  unset : ∀ s ∈ a.openSlots, (a.graph.content s.node).target? s.exit = none
  nodup : a.openSlots.Nodup
  unbound : ∀ l s, (l, s) ∈ a.deferred → a.node? l = none
  block : ∀ b, a.cursor = .inside b → a.graph.kind b = .block

/-- A slot which exists, is not set and for which nothing is planned. -/
structure Free (a : Assembly) (s : Slot) : Prop where
  has : s.exit ∈ a.graph.exits s.node
  unset : (a.graph.content s.node).target? s.exit = none
  notMem : s ∉ a.openSlots

/-- The node to which a label leads from the cursor on, if it has been placed, where `rest` is the
code still to be emitted. -/
def home (a : Assembly) (rest : List Instruction) (l : Label) : Option Node :=
  if l ∈ a.cursor.placed then some (landing rest a.graph.cells.size) else a.node? l

/-- The slot leads to the node, or will have been led to it when the code `rest` is emitted. -/
inductive Promises (a : Assembly) (rest : List Instruction) (s : Slot) (n : Node) : Prop where
  | led (h : (a.graph.content s.node).target? s.exit = some n)
  /-- The next node will be entered through the slot. -/
  | falls {placed : List Label} (h : a.cursor = .between (some s) placed)
      (hn : landing rest a.graph.cells.size = n)
  /-- The slot waits for a label which leads to the node. -/
  | waits {l : Label} (h : (l, s) ∈ a.deferred) (hn : a.home rest l = some n)

/-- The assembly `a` becomes `a'` while the code is emitted and the labels are referred to. -/
structure Evolves (a : Assembly) (code : List Instruction) (labels : List Label) (a' : Assembly) :
    Prop where
  size : a.graph.cells.size ≤ a'.graph.cells.size
  closed : ∀ m ∈ a.graph.nodes, a.cursor ≠ .inside m →
    a'.cursor ≠ .inside m ∧ a'.graph.kind m = a.graph.kind m
      ∧ (a'.graph.content m).observations = (a.graph.content m).observations
  home : ∀ rest l, l ∉ placed code → a'.home rest l = a.home (code ++ rest) l
  housed : ∀ rest l, l ∈ placed code → a'.home rest l ≠ none
  promises : ∀ rest s n, a.Promises (code ++ rest) s n → a'.Promises rest s n
  awaits : ∀ l s, (l, s) ∈ a.deferred → l ∉ placed code → a.home [] l = none →
    (l, s) ∈ a'.deferred
  deferred : ∀ l s, (l, s) ∈ a'.deferred → (l, s) ∈ a.deferred ∨ l ∈ labels

/-! ### General facts -/

theorem mem_openSlots :
  s ∈ a.openSlots ↔ a.cursor.fallsFrom = some s ∨ ∃ l, (l, s) ∈ a.deferred
  := by
  simp [openSlots, eq_comm]

theorem home_eq_none_iff :
  a.home rest l = none ↔ l ∉ a.cursor.placed ∧ a.node? l = none
  := by
  unfold home
  split <;> simp_all

theorem Evolves.refl
    (a : Assembly) :
  a.Evolves [] [] a
  where
  size := Nat.le_refl _
  closed _ _ h := ⟨h, rfl, rfl⟩
  home _ _ _ := rfl
  housed _ _ h := absurd h List.not_mem_nil
  promises _ _ _ h := h
  awaits _ _ h _ _ := h
  deferred _ _ h := Or.inl h

/-- Some code is emitted, and then some more. -/
theorem Evolves.trans
    (h : a.Evolves code labels a') (h' : a'.Evolves code' labels' a'') :
  a.Evolves (code ++ code') (labels ++ labels') a''
  := by
  constructor
  · apply Nat.le_trans h.size h'.size
  · intro m hm hcursor
    obtain ⟨hcursor', hkind, hobservations⟩ := h.closed m hm hcursor
    obtain ⟨hcursor'', hkind', hobservations'⟩ :=
      h'.closed m (FlowGraph.mem_nodes_of_size_le h.size hm) hcursor'
    exact ⟨hcursor'', hkind'.trans hkind, hobservations'.trans hobservations⟩
  · intro rest l hl
    rw [placed_append, List.mem_append, not_or] at hl
    rw [h'.home rest l hl.2, h.home _ l hl.1, List.append_assoc]
  · intro rest l hl
    by_cases hl' : l ∈ placed code'
    · apply h'.housed rest l hl'
    · rw [h'.home rest l hl']
      rw [placed_append, List.mem_append] at hl
      apply h.housed _ l (hl.resolve_right hl')
  · intro rest s n hs
    rw [List.append_assoc] at hs
    apply h'.promises rest s n (h.promises _ s n hs)
  · intro l s hs hl hhome
    rw [placed_append, List.mem_append, not_or] at hl
    apply h'.awaits l s (h.awaits l s hs hl.1 hhome) hl.2
    rw [h.home [] l hl.1]
    rwa [home_eq_none_iff] at hhome ⊢
  · intro l s hs
    obtain hs | hl := h'.deferred l s hs
    · obtain hs | hl := h.deferred l s hs
      · left
        apply hs
      · right
        apply List.mem_append_left _ hl
    · right
      apply List.mem_append_right _ hl

theorem Evolves.mono
    (h : a.Evolves code labels a') (hlabels : labels ⊆ labels') :
  a.Evolves code labels' a'
  := { h with deferred := fun l s hs => (h.deferred l s hs).imp_right fun hl => hlabels hl }

/-! ### Steps which make no node -/

theorem Sound.place
    (h : a.Sound) (l : Label) :
  (a.moveTo (.between a.cursor.fallsFrom (a.cursor.placed ++ [l]))).Sound
  where
  has := h.has
  unset := h.unset
  nodup := h.nodup
  unbound := h.unbound
  block _ hb := by contradiction

/-- A place makes a home at the cursor for its label. -/
theorem Sound.evolves_place
    (h : a.Sound) (l : Label) :
  a.Evolves [.place l] [] (a.moveTo (.between a.cursor.fallsFrom (a.cursor.placed ++ [l])))
  := by
  have hhome : ∀ rest l', l' ≠ l →
      (a.moveTo (.between a.cursor.fallsFrom (a.cursor.placed ++ [l]))).home rest l'
        = a.home (.place l :: rest) l' := by
    intro rest l' hl'
    simp [Assembly.home, hl', landing]
  constructor
  · apply Nat.le_refl
  · intro m _ _
    exact ⟨by simp, rfl, rfl⟩
  · intro rest l' hl'
    apply hhome rest l'
    simpa [Instruction.placed] using hl'
  · intro rest l' hl'
    obtain rfl : l' = l := by simpa [Instruction.placed] using hl'
    simp [home_eq_none_iff]
  · rintro rest s n (hs | ⟨hcursor, hn⟩ | ⟨hs, hn⟩)
    · exact Promises.led hs
    · have hcursor' : (a.moveTo (.between a.cursor.fallsFrom (a.cursor.placed ++ [l]))).cursor
          = .between (some s) (a.cursor.placed ++ [l]) := by simp [hcursor]
      exact Promises.falls hcursor' hn
    · rename_i l'
      refine Promises.waits (l := l') hs ?_
      by_cases hl' : l' = l
      · -- The slot waits for a label which is placed at the cursor already.
        subst hl'
        have hplaced : l' ∈ a.cursor.placed := by
          by_contra hplaced
          rw [Assembly.home, if_neg hplaced, h.unbound l' s hs] at hn
          contradiction
        rw [Assembly.home, if_pos hplaced] at hn
        rw [Assembly.home, if_pos (by simp)]
        apply hn
      · rw [hhome rest l' hl']
        apply hn
  · intro l' s hs _ _
    apply hs
  · intro l' s hs
    left
    apply hs

/-- Where the cursor is in a block or nowhere before and after, an assembly evolves if nothing is
unbound, disconnected or no longer awaited and only the block at the cursor is changed. -/
theorem evolves_of_settled
    (hcode : placed code = []) (hcursor : a.cursor = .nowhere ∨ ∃ b, a.cursor = .inside b)
    (hplaced : a'.cursor.placed = [])
    (hbindings : a'.bindings = a.bindings) (hsize : a'.graph.cells.size = a.graph.cells.size)
    (hclosed : ∀ m, a.cursor ≠ .inside m →
      a'.cursor ≠ .inside m ∧ a'.graph.kind m = a.graph.kind m
        ∧ (a'.graph.content m).observations = (a.graph.content m).observations)
    (hled : ∀ (s : Slot) n, (a.graph.content s.node).target? s.exit = some n →
      (a'.graph.content s.node).target? s.exit = some n)
    (hawaits : a.deferred ⊆ a'.deferred)
    (hdeferred : ∀ l s, (l, s) ∈ a'.deferred → (l, s) ∈ a.deferred ∨ l ∈ labels) :
  a.Evolves code labels a'
  := by
  have hhome : ∀ rest l, a'.home rest l = a.home (code ++ rest) l := by
    intro rest l
    have hplaced' : a.cursor.placed = [] := by
      obtain hcursor | ⟨b, hcursor⟩ := hcursor <;> rw [hcursor] <;> rfl
    simp [Assembly.home, hplaced, hplaced', node?, hbindings]
  constructor
  · apply Nat.le_of_eq hsize.symm
  · intro m _ hm
    apply hclosed m hm
  · intro rest l _
    apply hhome
  · intro rest l hl
    rw [hcode] at hl
    contradiction
  · rintro rest s n (hs | ⟨hs, _⟩ | ⟨hs, hn⟩)
    · apply Promises.led (hled s n hs)
    · obtain hcursor | ⟨b, hcursor⟩ := hcursor <;> simp [hcursor, Cursor.nowhere] at hs
    · apply Promises.waits (hawaits hs)
      rw [hhome]
      apply hn
  · intro l s hs _ _
    apply hawaits hs
  · apply hdeferred

theorem Sound.not_mem_deferred
    (h : a.Sound) (hs : a.cursor.fallsFrom = some s) :
  s ∉ a.deferred.map (·.2)
  := by
  have hnodup := h.nodup
  rw [openSlots, hs, Option.toList_some, List.singleton_append] at hnodup
  apply (List.nodup_cons.mp hnodup).1

/-- The cursor leaves a block, whose slot is free then. -/
theorem Sound.leave
    (h : a.Sound) (hb : a.cursor = .inside b) :
  (a.moveTo .nowhere).Sound ∧ (a.moveTo .nowhere).Free ⟨b, .next⟩
    ∧ a.Evolves [] [] (a.moveTo .nowhere)
  := by
  have hfalls : a.cursor.fallsFrom = some ⟨b, .next⟩ := by
    rw [hb]
    rfl
  have hopen : ∀ s ∈ (a.moveTo .nowhere).openSlots, s ∈ a.openSlots := by
    intro s hs
    apply List.mem_append_right _ hs
  refine ⟨⟨?_, ?_, ?_, h.unbound, ?_⟩, ⟨?_, ?_, ?_⟩, ?_⟩
  · intro s hs
    apply h.has s (hopen s hs)
  · intro s hs
    apply h.unset s (hopen s hs)
  · apply (List.nodup_append.mp h.nodup).2.1
  · intro b' hb'
    contradiction
  · apply h.has
    apply mem_openSlots.mpr (Or.inl hfalls)
  · apply h.unset
    apply mem_openSlots.mpr (Or.inl hfalls)
  · apply h.not_mem_deferred hfalls
  · apply evolves_of_settled rfl
    · apply Or.inr ⟨b, hb⟩
    · rfl
    · rfl
    · rfl
    · intro m _
      exact ⟨by simp [Cursor.nowhere], rfl, rfl⟩
    · intro s n hs
      apply hs
    · apply List.Subset.refl
    · intro l s hs
      left
      apply hs

/-- An action is added to the block at the cursor. -/
theorem Sound.extend
    (h : a.Sound) (hb : a.cursor = .inside b) (x : Action) :
  Sound { a with graph := a.graph.extend b x }
    ∧ a.Evolves [] [] { a with graph := a.graph.extend b x }
    ∧ ((a.graph.extend b x).content b).observations
      = (a.graph.content b).observations ++ [.act x]
  := by
  refine ⟨⟨?_, ?_, h.nodup, h.unbound, ?_⟩, ?_, ?_⟩
  · intro s hs
    rw [FlowGraph.exits, FlowGraph.kind_extend]
    apply h.has s hs
  · intro s hs
    rw [FlowGraph.target?_extend]
    apply h.unset s hs
  · intro b' hb'
    rw [FlowGraph.kind_extend]
    apply h.block b' hb'
  · apply evolves_of_settled rfl
    · apply Or.inr ⟨b, hb⟩
    · rw [hb]
      rfl
    · rfl
    · have hsize := a.graph.size_extend b x
      rw [FlowGraph.size, FlowGraph.size] at hsize
      change (a.graph.extend b x).cells.size = _
      omega
    · intro m hm
      have hne : m ≠ b := by
        rintro rfl
        apply hm hb
      refine ⟨hm, FlowGraph.kind_extend .., ?_⟩
      rw [FlowGraph.content_extend, if_neg hne]
    · intro s n hs
      rw [FlowGraph.target?_extend]
      apply hs
    · apply List.Subset.refl
    · intro l s hs
      left
      apply hs
  · rw [FlowGraph.content_extend, if_pos rfl]
    apply Content.observations_append (h.block b hb)

/-- A free slot is led to a node.  Other slots which are free stay free. -/
theorem Sound.redirect
    (h : a.Sound) (hcursor : a.cursor = .nowhere) (hs : a.Free s) (n : Node) :
  Sound { a with graph := a.graph.redirect s n }
    ∧ a.Evolves [] [] { a with graph := a.graph.redirect s n }
    ∧ ((a.graph.redirect s n).content s.node).target? s.exit = some n
    ∧ ∀ s', s' ≠ s → a.Free s' → Free { a with graph := a.graph.redirect s n } s'
  := by
  have hrewired := FlowGraph.rewired_redirect hs.has n
  have hexits : ∀ s' : Slot, s'.exit ∈ a.graph.exits s'.node →
      s'.exit ∈ (a.graph.redirect s n).exits s'.node := by
    intro s' hs'
    rw [FlowGraph.exits, hrewired.kind]
    apply hs'
  refine ⟨⟨?_, ?_, h.nodup, h.unbound, ?_⟩, ?_, hrewired.led s rfl, ?_⟩
  · intro s' hs'
    apply hexits s' (h.has s' hs')
  · intro s' hs'
    rw [hrewired.kept]
    · apply h.unset s' hs'
    · rintro rfl
      apply hs.notMem hs'
  · intro b hb
    rw [hrewired.kind]
    apply h.block b hb
  · apply evolves_of_settled rfl
    · apply Or.inl hcursor
    · rw [hcursor]
      rfl
    · rfl
    · apply hrewired.size
    · intro m hm
      exact ⟨hm, hrewired.kind m, hrewired.observations m⟩
    · intro s' n' hs'
      rw [hrewired.kept]
      · apply hs'
      · rintro rfl
        rw [hs.unset] at hs'
        contradiction
    · apply List.Subset.refl
    · intro l s hs
      left
      apply hs
  · intro s' hne hs'
    refine ⟨hexits s' hs'.has, ?_, hs'.notMem⟩
    rw [hrewired.kept s' hne]
    apply hs'.unset

/-- A free slot waits for a label.  Other slots which are free stay free. -/
theorem Sound.defer
    (h : a.Sound) (hcursor : a.cursor = .nowhere) (hs : a.Free s) (hl : a.node? l = none) :
  Sound { a with deferred := a.deferred ++ [(l, s)] }
    ∧ a.Evolves [] [l] { a with deferred := a.deferred ++ [(l, s)] }
    ∧ ∀ s', s' ≠ s → a.Free s' → Free { a with deferred := a.deferred ++ [(l, s)] } s'
  := by
  have hopen : openSlots { a with deferred := a.deferred ++ [(l, s)] } = a.openSlots ++ [s] := by
    simp [openSlots]
  refine ⟨⟨?_, ?_, ?_, ?_, h.block⟩, ?_, ?_⟩
  · intro s' hs'
    rw [hopen, List.mem_append, List.mem_singleton] at hs'
    obtain hs' | rfl := hs'
    · apply h.has s' hs'
    · apply hs.has
  · intro s' hs'
    rw [hopen, List.mem_append, List.mem_singleton] at hs'
    obtain hs' | rfl := hs'
    · apply h.unset s' hs'
    · apply hs.unset
  · rw [hopen, ← List.concat_eq_append]
    apply List.Nodup.concat hs.notMem h.nodup
  · intro l' s' hs'
    rw [List.mem_append, List.mem_singleton, Prod.mk.injEq] at hs'
    obtain hs' | ⟨rfl, rfl⟩ := hs'
    · apply h.unbound l' s' hs'
    · apply hl
  · apply evolves_of_settled rfl
    · apply Or.inl hcursor
    · rw [hcursor]
      rfl
    · rfl
    · rfl
    · intro m hm
      exact ⟨hm, rfl, rfl⟩
    · intro s' n hs'
      apply hs'
    · apply List.subset_append_left
    · intro l' s' hs'
      rw [List.mem_append, List.mem_singleton, Prod.mk.injEq] at hs'
      obtain hs' | ⟨rfl, -⟩ := hs'
      · left
        apply hs'
      · right
        apply List.mem_singleton_self
  · intro s' hne hs'
    refine ⟨hs'.has, hs'.unset, ?_⟩
    rw [hopen, List.mem_append, List.mem_singleton, not_or]
    exact ⟨hs'.notMem, hne⟩

end Assembly

end MethodFlow
