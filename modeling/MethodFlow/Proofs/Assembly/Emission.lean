import MethodFlow.Proofs.Assembly.Growth

/-!
# Emitting instructions

What becomes of an assembly when an instruction is emitted, one lemma for each instruction.  Where
the code stands, `Assembly.standing`, is a node of the graph and what has been done at the node so
far.  `Assembly.Sound.emitAll` puts the lemmas together for code of any length.
-/

namespace MethodFlow

open LinearCode

namespace Assembly

variable {a a' a'' : Assembly} {code rest : List Instruction} {l : Label} {s : Slot} {n b : Node}

/-- The node at which the code `rest` goes on, and what has been done at the node by the code
emitted so far. -/
def standing (a : Assembly) (rest : List Instruction) : Node × List Observation :=
  match a.cursor with
  | .inside b => (b, (a.graph.content b).observations)
  | .between _ _ => (landing rest a.graph.cells.size, [])

/-- After `a` has become `a'`, the slot leads to the label. -/
structure Refers (a : Assembly) (i : Instruction) (l : Label) (s : Slot) (a' : Assembly) :
    Prop where
  promises : ∀ rest n, a.home (i :: rest) l = some n → a'.Promises rest s n
  awaits : a.home [] l = none → (l, s) ∈ a'.deferred

/-- At a cursor which is in a block or nowhere, an instruction other than a place may come to
nothing. -/
theorem evolves_self
    (hcursor : a.cursor = .nowhere ∨ ∃ b, a.cursor = .inside b) {i : Instruction}
    (hi : i.placed = []) :
  a.Evolves [i] [] a
  := by
  apply evolves_of_settled
  · rw [placed_cons, hi]
    rfl
  · apply hcursor
  · obtain hcursor | ⟨b, hcursor⟩ := hcursor <;> rw [hcursor] <;> rfl
  · rfl
  · rfl
  · intro m hm
    exact ⟨hm, rfl, rfl⟩
  · intro s n hs
    apply hs
  · apply List.Subset.refl
  · intro l s hs
    left
    apply hs

/-- The cursor goes into a block whose slot is free. -/
theorem Sound.stand
    (h : (a.moveTo .nowhere).Sound) (hfree : (a.moveTo .nowhere).Free ⟨b, .next⟩)
    (hb : a.graph.kind b = .block) :
  (a.moveTo (.inside b)).Sound
  where
  has s hs := by
    obtain rfl | hs := List.mem_cons.mp hs
    · apply hfree.has
    · apply h.has s hs
  unset s hs := by
    obtain rfl | hs := List.mem_cons.mp hs
    · apply hfree.unset
    · apply h.unset s hs
  nodup := List.nodup_cons.mpr ⟨hfree.notMem, h.nodup⟩
  unbound := h.unbound
  block b' hb' := by
    obtain rfl := Cursor.inside.inj hb'
    apply hb

theorem openBlock_of_between
    {fallsFrom : Option Slot} {labels : List Label} (h : a.cursor = .between fallsFrom labels) :
  a.openBlock = (do return (a.next, ← Assembly.land { a with
    graph := { a.graph with cells := a.graph.cells.push (.block [] none) } } a.next))
  := by
  rw [Assembly.openBlock]
  split
  · rw [h] at *
    contradiction
  · rfl

/-- A block is opened, which is the one at the cursor or a new one. -/
theorem Sound.openBlock
    (h : a.Sound) :
  ∃ b a', a.openBlock = .ok (b, a') ∧ (a'.moveTo (.inside b)).Sound
    ∧ ∀ i : Instruction, i.placed = [] → a.Evolves [i] [] (a'.moveTo (.inside b))
      ∧ ∀ rest, a.standing (i :: rest) = (b, (a'.graph.content b).observations)
  := by
  cases hcursor : a.cursor with
  | inside b =>
      have hmove : a.moveTo (.inside b) = a := by rw [moveTo, ← hcursor]
      use b, a
      rw [hmove]
      refine ⟨?_, h, ?_⟩
      · rw [Assembly.openBlock, hcursor]
      · intro i hi
        use evolves_self (Or.inr ⟨b, hcursor⟩) hi
        intro rest
        rw [standing, hcursor]
  | between fallsFrom labels =>
      obtain ⟨g, hg, hgrown⟩ := h.land (.block [] none) (fun p => by cases p <;> rfl)
      use a.next, a.landed a.next g
      refine ⟨?_, ?_, ?_⟩
      · rw [openBlock_of_between hcursor, hg]
        rfl
      · apply Sound.stand (hgrown.sound h) (hgrown.free h (List.mem_singleton_self _))
        apply hgrown.kind_next
      · intro i hi
        constructor
        · apply hgrown.evolves h hi (.inside a.next) rfl
          intro m hm hinside
          obtain rfl := Cursor.inside.inj hinside
          apply ne_next_of_mem hm rfl
        · intro rest
          rw [standing, hcursor]
          simp only [landing_cons hi]
          have hobservations : (g.content a.next).observations = [] := hgrown.observations_next
          rw [← hobservations]
          rfl

/-- A free slot is led to a label, now or when the label is bound. -/
theorem Sound.refer
    (h : (a.moveTo .nowhere).Sound) (hs : (a.moveTo .nowhere).Free s) (l : Label) :
  ∃ a', a.refer l s = .ok a' ∧ (a'.moveTo .nowhere).Sound
    ∧ (a.moveTo .nowhere).Evolves [] [l] (a'.moveTo .nowhere)
    ∧ (∀ n, a.node? l = some n → (a'.graph.content s.node).target? s.exit = some n)
    ∧ (a.node? l = none → (l, s) ∈ a'.deferred)
    ∧ ∀ s', s' ≠ s → (a.moveTo .nowhere).Free s' → (a'.moveTo .nowhere).Free s'
  := by
  cases hl : a.node? l with
  | some n =>
      obtain ⟨hsound, hevolves, hled, hfree⟩ := h.redirect rfl hs n
      use { a with graph := a.graph.redirect s n }
      refine ⟨?_, hsound, ?_, ?_, ?_, hfree⟩
      · rw [Assembly.refer, hl]
        apply connect_eq (a := a) hs.has n
      · apply hevolves.mono (List.nil_subset _)
      · intro n' hn'
        obtain rfl := Option.some.inj hn'
        apply hled
      · intro hn
        contradiction
  | none =>
      obtain ⟨hsound, hevolves, hfree⟩ := h.defer rfl hs hl
      use { a with deferred := a.deferred ++ [(l, s)] }
      refine ⟨?_, hsound, hevolves, ?_, ?_, hfree⟩
      · rw [Assembly.refer, hl]
      · intro n hn
        contradiction
      · intro _
        simp

/-- What leads to a label after the cursor was nowhere leads to the label which was referred to. -/
theorem refers_of_evolves
    {i : Instruction} {labels : List Label} (hi : i.placed = []) (h : a.Evolves [i] labels a')
    (hcursor : a'.cursor = .nowhere)
    (hbound : ∀ n, a'.node? l = some n → (a''.graph.content s.node).target? s.exit = some n)
    (hdeferred : a'.node? l = none → (l, s) ∈ a''.deferred) :
  a.Refers i l s a''
  := by
  have hhome : ∀ rest, a.home (i :: rest) l = a'.node? l := by
    intro rest
    have hl : l ∉ placed [i] := by
      rw [placed_cons, hi]
      apply List.not_mem_nil
    rw [← List.singleton_append, ← h.home rest l hl, home, hcursor]
    apply if_neg List.not_mem_nil
  constructor
  · intro rest n hn
    rw [hhome] at hn
    apply Promises.led (hbound n hn)
  · intro hn
    apply hdeferred
    rw [← hhome []]
    rwa [home_eq_none_iff] at hn ⊢

/-- What was referred to stays so. -/
theorem Refers.evolves
    {i : Instruction} {labels labels' : List Label} (hrefers : a.Refers i l s a')
    (hi : i.placed = []) (h : a.Evolves [i] labels a') (h' : a'.Evolves [] labels' a'') :
  a.Refers i l s a''
  := by
  constructor
  · intro rest n hn
    apply h'.promises rest s n (hrefers.promises rest n hn)
  · intro hn
    apply h'.awaits l s (hrefers.awaits hn) List.not_mem_nil
    have hl : l ∉ placed [i] := by
      rw [placed_cons, hi]
      apply List.not_mem_nil
    rw [h.home [] l hl]
    rwa [home_eq_none_iff] at hn ⊢

/-! ### The instructions -/

theorem emit_place
    (a : Assembly) (l : Label) :
  a.emit (.place l) = .ok (a.moveTo (.between a.cursor.fallsFrom (a.cursor.placed ++ [l])))
  := rfl

/-- The action `x` was emitted: it is done last at the node `b` where the code stands, behind what
was done there.  If it is a return, the node leads to the stop, and else the cursor stays there. -/
structure Acted (a : Assembly) (x : Action) (b : Node) (done : List Observation)
    (a' : Assembly) : Prop where
  sound : a'.Sound
  evolves : a.Evolves [.act x] [] a'
  standing : ∀ rest, a.standing (.act x :: rest) = (b, done)
  mem : b ∈ a'.graph.nodes
  observations : (a'.graph.content b).observations = done ++ [.act x]
  inside : x.endsMethod = false → a'.cursor = .inside b
  nowhere : x.endsMethod = true → a'.cursor = .nowhere
  stop : x.endsMethod = true → (a'.graph.content b).target? .next = some .stop

/-- A branch was emitted: the code stands at a new jump, whose slots lead to the labels. -/
structure Branched (a : Assembly) (c : Expr) (ifTrue ifFalse : Label) (a' : Assembly) : Prop where
  sound : a'.Sound
  evolves : a.Evolves [.branch c ifTrue ifFalse] [ifTrue, ifFalse] a'
  cursor : a'.cursor = .nowhere
  mem : a.next ∈ a'.graph.nodes
  kind : a'.graph.kind a.next = .jump
  test : (a'.graph.content a.next).observations = [.test c]
  observations : ∀ m ∈ a.graph.nodes,
    (a'.graph.content m).observations = (a.graph.content m).observations
  promises : ∀ rest s, a.cursor.fallsFrom = some s → a'.Promises rest s a.next
  refersTrue : a.Refers (.branch c ifTrue ifFalse) ifTrue ⟨a.next, .ifTrue⟩ a'
  refersFalse : a.Refers (.branch c ifTrue ifFalse) ifFalse ⟨a.next, .ifFalse⟩ a'

/-- A jump was emitted: the node `b` where the code stands leads to the label. -/
structure Jumped (a : Assembly) (l : Label) (b : Node) (done : List Observation)
    (a' : Assembly) : Prop where
  sound : a'.Sound
  evolves : a.Evolves [.jump l] [l] a'
  cursor : a'.cursor = .nowhere
  standing : ∀ rest, a.standing (.jump l :: rest) = (b, done)
  mem : b ∈ a'.graph.nodes
  observations : (a'.graph.content b).observations = done
  refers : a.Refers (.jump l) l ⟨b, .next⟩ a'

/-- An action is emitted. -/
theorem Sound.emit_act
    (h : a.Sound) (x : Action) :
  ∃ a' b done, a.emit (.act x) = .ok a' ∧ a.Acted x b done a'
  := by
  obtain ⟨b, a₁, hopen, hsound₁, h₁⟩ := h.openBlock
  obtain ⟨hevolves₁, hstanding⟩ := h₁ (.act x) rfl
  obtain ⟨hsound₂, hevolves₂, hobservations⟩ := hsound₁.extend rfl x
  have hblock : a₁.graph.kind b = .block := hsound₁.block b rfl
  have happend : a₁.graph.append b x = .ok (a₁.graph.extend b x) := if_pos hblock
  have hmem : b ∈ (a₁.graph.extend b x).nodes := by
    apply FlowGraph.mem_nodes_of_mem_exits (p := .next)
    rw [FlowGraph.exits, FlowGraph.kind_extend, hblock]
    apply List.mem_singleton_self _
  cases hx : x.endsMethod with
  | false =>
      use ({ a₁ with graph := a₁.graph.extend b x } : Assembly).moveTo (.inside b), b,
        (a₁.graph.content b).observations
      constructor
      · rw [emit, hopen]
        simp only [bind, Except.bind, happend, hx]
        rfl
      · refine ⟨hsound₂, hevolves₁.trans hevolves₂, hstanding, hmem, hobservations, ?_, ?_, ?_⟩
        · intro _
          rfl
        all_goals
          intro hret
          rw [hx] at hret
          contradiction
  | true =>
      obtain ⟨hsound₃, hfree, hevolves₃⟩ := hsound₂.leave rfl
      obtain ⟨hsound₄, hevolves₄, hled, -⟩ := hsound₃.redirect rfl hfree .stop
      have hconnect := connect_eq (a := { a₁ with graph := a₁.graph.extend b x }) hfree.has .stop
      obtain ⟨-, -, hobservations₄⟩ := hevolves₄.closed b hmem (by simp [Cursor.nowhere])
      have hevolves := ((hevolves₁.trans hevolves₂).trans hevolves₃).trans hevolves₄
      use (Assembly.moveTo { a₁ with
          graph := (a₁.graph.extend b x).redirect ⟨b, .next⟩ .stop } .nowhere), b,
        (a₁.graph.content b).observations
      constructor
      · rw [emit, hopen]
        simp only [bind, Except.bind, happend, hx, hconnect]
        rfl
      · refine ⟨hsound₄, hevolves, hstanding, ?_, ?_, ?_, ?_, ?_⟩
        · apply FlowGraph.mem_nodes_of_size_le hevolves₄.size hmem
        · apply hobservations₄.trans hobservations
        · intro hret
          rw [hx] at hret
          contradiction
        · intro _
          rfl
        · intro _
          apply hled

/-- A branch is emitted. -/
theorem Sound.emit_branch
    (h : a.Sound) (c : Expr) (ifTrue ifFalse : Label) :
  ∃ a', a.emit (.branch c ifTrue ifFalse) = .ok a' ∧ a.Branched c ifTrue ifFalse a'
  := by
  obtain ⟨g, hg, hgrown⟩ := h.land (.jump c none none) (fun p => by cases p <;> rfl)
  have hsound₁ := hgrown.sound h
  have hevolves₁ : a.Evolves [.branch c ifTrue ifFalse] [] ((a.landed a.next g).moveTo .nowhere) :=
    hgrown.evolves h rfl .nowhere rfl (fun _ _ hinside => by contradiction)
  have hmem : a.next ∈ g.nodes := by
    rw [next, FlowGraph.inner_mem_nodes_iff, hgrown.size]
    apply Nat.lt_succ_self
  have hfree : ∀ p, p ≠ .next → ((a.landed a.next g).moveTo .nowhere).Free ⟨a.next, p⟩ := by
    intro p hp
    apply hgrown.free h
    cases p with
    | next => contradiction
    | _ => simp [Cell.content, Content.kind, Kind.exits]
  obtain ⟨a₂, ha₂, hsound₂, hevolves₂, hbound₂, hdeferred₂, hfree₂⟩ :=
    hsound₁.refer (hfree .ifTrue (by decide)) ifTrue
  obtain ⟨a₃, ha₃, hsound₃, hevolves₃, hbound₃, hdeferred₃, -⟩ :=
    hsound₂.refer (hfree₂ ⟨a.next, .ifFalse⟩ (by simp) (hfree .ifFalse (by decide))) ifFalse
  have hrefers : a.Refers (.branch c ifTrue ifFalse) ifTrue ⟨a.next, .ifTrue⟩
      (a₂.moveTo .nowhere) := refers_of_evolves rfl hevolves₁ rfl hbound₂ hdeferred₂
  have hlater := hevolves₂.trans hevolves₃
  obtain ⟨-, hkind, hobservations⟩ := hlater.closed a.next hmem (by simp [Cursor.nowhere])
  use a₃.moveTo .nowhere
  constructor
  · have hland : Assembly.land { a with graph := (a.graph.addJump c).2 } (a.graph.addJump c).1
        = .ok (a.landed a.next g) := hg
    have ha₂' : (a.landed a.next g).refer ifTrue ⟨(a.graph.addJump c).1, .ifTrue⟩ = .ok a₂ := ha₂
    have ha₃' : a₂.refer ifFalse ⟨(a.graph.addJump c).1, .ifFalse⟩ = .ok a₃ := ha₃
    simp only [emit, hland, bind, Except.bind, ha₂', ha₃']
    rfl
  · refine ⟨hsound₃, hevolves₁.trans hlater, rfl, ?_, ?_, ?_, ?_, ?_, ?_, ?_⟩
    · apply FlowGraph.mem_nodes_of_size_le hlater.size hmem
    · apply hkind.trans hgrown.kind_next
    · apply hobservations.trans hgrown.observations_next
    · intro m hm
      obtain ⟨-, -, hobservations⟩ := hlater.closed m
        (FlowGraph.mem_nodes_of_size_le hevolves₁.size hm) (by simp [Cursor.nowhere])
      apply hobservations.trans (hgrown.observations m hm)
    · intro rest s hs
      apply hlater.promises rest s a.next
      apply Promises.led
      apply hgrown.led s (Or.inl hs)
    · apply hrefers.evolves rfl (hevolves₁.trans hevolves₂) hevolves₃
    · exact refers_of_evolves rfl (hevolves₁.trans hevolves₂) rfl hbound₃ hdeferred₃

/-- A jump which is reached is emitted. -/
theorem Sound.emit_jump
    (h : a.Sound) (hreachable : a.cursor.isReachable = true) (l : Label) :
  ∃ a' b done, a.emit (.jump l) = .ok a' ∧ a.Jumped l b done a'
  := by
  obtain ⟨b, a₁, hopen, hsound₁, h₁⟩ := h.openBlock
  obtain ⟨hevolves₁, hstanding⟩ := h₁ (.jump l) rfl
  obtain ⟨hsound₂, hfree, hevolves₂⟩ := hsound₁.leave rfl
  obtain ⟨a₃, ha₃, hsound₃, hevolves₃, hbound₃, hdeferred₃, -⟩ :=
    Sound.refer (a := a₁) hsound₂ hfree l
  have hmem : b ∈ a₁.graph.nodes := FlowGraph.mem_nodes_of_mem_exits hfree.has
  obtain ⟨-, -, hobservations⟩ := hevolves₃.closed b hmem (by simp [Cursor.nowhere])
  have hbefore := hevolves₁.trans hevolves₂
  use a₃.moveTo .nowhere, b, (a₁.graph.content b).observations
  constructor
  · rw [emit, if_pos hreachable, hopen]
    simp only [bind, Except.bind, ha₃]
    rfl
  · refine ⟨hsound₃, hbefore.trans hevolves₃, rfl, hstanding, ?_, hobservations, ?_⟩
    · apply FlowGraph.mem_nodes_of_size_le hevolves₃.size hmem
    · exact refers_of_evolves rfl hbefore rfl hbound₃ hdeferred₃

/-- A cursor which nothing reaches is nowhere. -/
theorem eq_nowhere_of_not_reachable
    {cursor : Cursor} (h : cursor.isReachable = false) :
  cursor = .nowhere
  := by
  cases cursor with
  | inside b => contradiction
  | between fallsFrom labels =>
      cases fallsFrom with
      | some s => contradiction
      | none =>
          cases labels with
          | nil => rfl
          | cons l labels => contradiction

/-- A jump which nothing reaches is dropped. -/
theorem emit_jump_of_not_reachable
    (h : a.cursor.isReachable = false) (l : Label) :
  a.emit (.jump l) = .ok a ∧ a.Evolves [.jump l] [] a
  := by
  have hcursor := eq_nowhere_of_not_reachable h
  constructor
  · rw [emit, if_neg (by simp [h]), moveTo, ← hcursor]
    rfl
  · apply evolves_self (Or.inl hcursor) rfl

/-! ### Code -/

/-- Every instruction is emitted without failure. -/
theorem Sound.emit
    (h : a.Sound) (i : Instruction) :
  ∃ a', a.emit i = .ok a' ∧ a'.Sound ∧ a.Evolves [i] i.targets a'
  := by
  cases i with
  | place l => exact ⟨_, a.emit_place l, h.place l, h.evolves_place l⟩
  | act x =>
      obtain ⟨a', _, _, hemit, hacted⟩ := h.emit_act x
      exact ⟨a', hemit, hacted.sound, hacted.evolves⟩
  | branch c ifTrue ifFalse =>
      obtain ⟨a', hemit, hbranched⟩ := h.emit_branch c ifTrue ifFalse
      exact ⟨a', hemit, hbranched.sound, hbranched.evolves⟩
  | jump l =>
      cases hreachable : a.cursor.isReachable with
      | true =>
          obtain ⟨a', _, _, hemit, hjumped⟩ := h.emit_jump hreachable l
          exact ⟨a', hemit, hjumped.sound, hjumped.evolves⟩
      | false =>
          obtain ⟨hemit, hevolves⟩ := emit_jump_of_not_reachable hreachable l
          exact ⟨a, hemit, h, hevolves.mono (List.nil_subset _)⟩

theorem emitAll_append
    (a : Assembly) (code code' : List Instruction) :
  a.emitAll (code ++ code') = a.emitAll code >>= fun a' => a'.emitAll code'
  := by
  apply List.foldlM_append

theorem emitAll_concat
    (a : Assembly) (code : List Instruction) (i : Instruction) :
  a.emitAll (code ++ [i]) = a.emitAll code >>= fun a' => a'.emit i
  := by
  rw [emitAll_append]
  congr 1
  funext a'
  rw [Assembly.emitAll, List.foldlM_cons]
  apply bind_pure

/-- Places are noted at the cursor. -/
theorem emitAll_places
    (a : Assembly) (l : Label) (labels : List Label) :
  a.emitAll ((l :: labels).map .place)
    = .ok (a.moveTo (.between a.cursor.fallsFrom (a.cursor.placed ++ l :: labels)))
  := by
  induction labels generalizing a l with
  | nil => rfl
  | cons l' labels ih =>
      rw [List.map_cons, Assembly.emitAll, List.foldlM_cons, emit_place]
      apply (ih _ l').trans
      simp [moveTo]

/-- All code is emitted without failure. -/
theorem Sound.emitAll
    (h : a.Sound) (code : List Instruction) :
  ∃ a', a.emitAll code = .ok a' ∧ a'.Sound ∧ a.Evolves code (targets code) a'
  := by
  induction code generalizing a with
  | nil => exact ⟨a, rfl, h, Evolves.refl a⟩
  | cons i code ih =>
      obtain ⟨a', hemit, hsound, hevolves⟩ := h.emit i
      obtain ⟨a'', hemit', hsound', hevolves'⟩ := ih hsound
      use a''
      refine ⟨?_, hsound', hevolves.trans hevolves'⟩
      rw [Assembly.emitAll, List.foldlM_cons, hemit]
      apply hemit'

end Assembly

end MethodFlow
