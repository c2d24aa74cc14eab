import MethodFlow.Proofs.Assembly.Completion
import MethodFlow.Proofs.Assembly.Meaning
import MethodFlow.Proofs.Assembly.Origin
import MethodFlow.Proofs.Execution.Preservation
import MethodFlow.Proofs.Graph.Loops
import MethodFlow.Proofs.LinearCode.Writes

/-!
# The loops of a method

`Method.HasLoop` says which nodes of the flow graph of a method are made for a loop of the method.
The graph has no other circles: it is `FlowGraph.Looped` (`Method.looped`), since a slot leads ahead
unless an instruction sends it to a label placed before, and nothing outside of a loop names a label
placed in the loop.
-/

namespace MethodFlow

open LinearCode Assembly

/-- The loop is made for one of the loops of the method: its nodes are those made while the code of
the loop is emitted, the first of which is its head. -/
def Method.HasLoop (m : Method) (l : Loop) : Prop :=
  ∃ before c b n after, m.Writes before (.stmt (.loop c b)) n after
    ∧ l = ⟨c, made m.parameters before,
      made m.parameters (before ++ (Part.stmt (.loop c b)).instructions n)⟩

/-- The node made last while a loop is emitted is one of the loop, unless it is the head. -/
theorem Loop.contains_latest
    {l : Loop} {size : Nat} (hle : l.made + 1 ≤ size) (hle' : size ≤ l.complete)
    (hne : Node.latest size ≠ l.head) :
  l.Contains (.latest size)
  := by
  cases size with
  | zero => omega
  | succ i =>
      have hi : i ≠ l.made := by
        rintro rfl
        apply hne rfl
      use i, rfl
      omega

/-- An inner node which leads on without a condition is a block. -/
theorem FlowGraph.kind_inner_of_next
    (g : FlowGraph) {i : Nat} (h : .next ∈ g.exits (.inner i)) :
  g.kind (.inner i) = .block
  := by
  rw [exits, kind, content] at h
  rw [kind, content]
  cases hcell : g.cells[i]? with
  | none =>
      rw [hcell] at h
      contradiction
  | some cell =>
      rw [hcell] at h
      cases cell with
      | block _ _ => rfl
      | jump _ _ _ => contradiction

namespace Method

variable {m : Method} {a : Assembly} {g : FlowGraph} {l : Loop} {s : Slot} {k : Node}
  {label : Label} {b : List Stmt} {n : Nat} {before after : List Instruction}

/-- The code of the method, between `before` and `after`, is that of the loop. -/
structure Loops (m : Method) (l : Loop) (before : List Instruction) (b : List Stmt) (n : Nat)
    (after : List Instruction) : Prop where
  writes : m.Writes before (.stmt (.loop l.test b)) n after
  made_head : made m.parameters (before ++ [.place ⟨n⟩]) = l.made
  made_round : made m.parameters
    (before ++ [.place ⟨n⟩] ++ .branch l.test ⟨n + 1⟩ ⟨n + 2⟩ :: Part.round b n) = l.complete

/-- Where a loop is written, a loop of the method is made. -/
theorem loops_of_writes
    {c : Expr} (h : m.Writes before (.stmt (.loop c b)) n after) :
  m.Loops ⟨c, made m.parameters before,
    made m.parameters (before ++ (Part.stmt (.loop c b)).instructions n)⟩ before b n after
  where
  writes := h
  made_head := by rw [made_concat_place]
  made_round := by
    rw [Part.instructions_loop, ← made_concat_place _ _ ⟨n + 2⟩]
    simp

/-- The loops of a method are those which are written in its code. -/
theorem hasLoop_iff :
  m.HasLoop l ↔ ∃ before b n after, m.Loops l before b n after
  := by
  constructor
  · rintro ⟨before, c, b, n, after, hwrites, rfl⟩
    exact ⟨before, b, n, after, loops_of_writes hwrites⟩
  · rintro ⟨before, b, n, after, hloops⟩
    use before, l.test, b, n, after, hloops.writes
    have hwritten := loops_of_writes hloops.writes
    obtain ⟨test, made, complete⟩ := l
    congr 1
    · exact hloops.made_head.symm.trans hwritten.made_head
    · exact hloops.made_round.symm.trans hwritten.made_round

theorem Loops.made_branch
    (h : m.Loops l before b n after) :
  made m.parameters (before ++ [.place ⟨n⟩] ++ [.branch l.test ⟨n + 1⟩ ⟨n + 2⟩])
    = l.made + 1
  := by
  rw [made_concat_branch, h.made_head]

/-- What is placed where the nodes of a loop are made is placed in a round of the loop. -/
theorem Loops.mem_placed_round
    (h : m.Loops l before b n after) (hplaces : Places m.parameters m.code label k)
    (hk : l.Contains k) :
  label ∈ placed (Part.round b n)
  := by
  obtain ⟨outer, rest, hcode, rfl⟩ := hplaces
  obtain ⟨_, heq, hlt, hlt'⟩ := hk
  obtain rfl := Node.inner.inj heq
  have hloop := h.writes.code_eq_of_loop
  rw [← hcode] at hloop
  obtain ⟨after', hbefore⟩ | ⟨outer, rfl, hinner⟩ := append_eq_append_cons hloop
  · have hle := made_le_of_isPrefix m.parameters ⟨_, hbefore.symm⟩
    rw [h.made_head] at hle
    omega
  · rw [← List.cons_append] at hinner
    obtain ⟨after', hround⟩ | ⟨rest', rfl, -⟩ := append_eq_append_cons hinner
    · apply mem_placed_iff.mpr
      have hmem : .place label ∈ .branch l.test ⟨n + 1⟩ ⟨n + 2⟩ :: Part.round b n := by
        rw [hround]
        simp
      simpa using hmem
    · rw [← List.append_assoc] at hlt'
      have hle := made_le_of_isPrefix m.parameters (List.prefix_append
        (before ++ [.place ⟨n⟩] ++ .branch l.test ⟨n + 1⟩ ⟨n + 2⟩ :: Part.round b n) rest')
      rw [h.made_round] at hle
      omega

/-- The head of a loop is a jump which tests the condition of the loop. -/
theorem Loops.head
    (h : m.Loops l before b n after) (ha : m.assembly = .ok a) (hg : a.Finished g) :
  g.kind l.head = .jump ∧ (g.content l.head).observations = [.test l.test]
  := by
  have hcode : (initial m.parameters).emitAll m.code = .ok a := ha
  rw [← h.writes.code_eq_of_loop] at hcode
  obtain ⟨a', hstage⟩ := exists_stage hcode hg
  obtain ⟨hkind, hobservations, -⟩ := hstage.branch hcode hg
  have hnext : a'.next = l.head := by
    rw [next, Loop.head, ← made_eq hstage.emitted, h.made_head]
  rw [← hnext]
  exact ⟨hkind, hobservations⟩

theorem Loops.ne_head
    (h : m.Loops l before b n after) (ha : m.assembly = .ok a) (hg : a.Finished g)
    (hnext : .next ∈ g.exits k) :
  k ≠ l.head
  := by
  rintro rfl
  rw [FlowGraph.exits, (h.head ha hg).1] at hnext
  contradiction

/-- A label is placed in the code of a method once. -/
theorem eq_of_places
    (m : Method) {outer rest : List Instruction} (hcode : outer ++ .place label :: rest = m.code)
    (h : Places m.parameters m.code label k) :
  k = .inner (made m.parameters outer)
  := by
  obtain ⟨outer', rest', hcode', rfl⟩ := h
  have hnodup := m.nodup_placed
  rw [← hcode] at hnodup
  rw [(eq_of_append_place hnodup (hcode.trans hcode'.symm)).1]

/-! ### Slots -/

/-- Only the slot of the head for the case that the condition holds leads into a loop from
outside. -/
theorem Loops.entry
    (h : m.Loops l before b n after) (ha : m.assembly = .ok a) (hg : a.Finished g)
    (horigin : Origin m.parameters m.code s k) (hs : s.exit ∈ g.exits s.node) (hk : l.Contains k) :
  l.Contains s.node ∨ s = ⟨l.head, .ifTrue⟩
  := by
  cases horigin with
  | stop hstop =>
      obtain ⟨i, rfl, -⟩ := hk
      contradiction
  | @falls size hfalls hk' =>
      left
      subst hfalls
      obtain ⟨i, rfl, hlt, hlt'⟩ := hk
      obtain rfl := Node.inner.inj hk'
      apply Loop.contains_latest hlt (Nat.le_of_lt hlt')
      apply h.ne_head ha hg hs
  | @sent label hsends hplaces =>
      obtain ⟨pre, i, post, hcode, hlabel, hnode⟩ := hsends
      obtain ⟨node, exit⟩ := s
      simp only at hlabel hnode hs
      obtain ⟨rfl, rfl, rfl⟩ | ⟨inner, inner', rfl, hround⟩ := h.writes.enters_loop hcode
        (Instruction.mem_targets_of_label? hlabel) (h.mem_placed_round hplaces hk)
      · right
        rw [h.made_branch] at hnode
        cases exit with
        | next => contradiction
        | ifTrue => rw [hnode]; rfl
        | ifFalse => simp [Instruction.label?] at hlabel
      · left
        rw [hnode]
        apply Loop.contains_latest
        · rw [← h.made_branch]
          apply made_le_of_isPrefix
          simp
        · rw [← h.made_round, hround]
          apply made_le_of_isPrefix
          simp
        · rw [← hnode]
          cases i with
          | place _ => contradiction
          | act _ => contradiction
          | jump _ =>
              cases exit with
              | next => apply h.ne_head ha hg hs
              | _ => contradiction
          | branch c t f =>
              intro hhead
              rw [hnode, made_concat_branch, Node.latest, Loop.head, Node.inner.injEq] at hhead
              have hle := made_le_of_isPrefix m.parameters (List.prefix_append
                (before ++ [.place ⟨n⟩] ++ [.branch l.test ⟨n + 1⟩ ⟨n + 2⟩]) inner)
              rw [h.made_branch, List.append_assoc, List.singleton_append, hhead] at hle
              omega

/-- The slot of the head for the case that the condition fails leads behind the loop. -/
theorem Loops.leaves
    (h : m.Loops l before b n after)
    (horigin : Origin m.parameters m.code ⟨l.head, .ifFalse⟩ k) :
  k = .stop ∨ k = .inner l.complete
  := by
  cases horigin with
  | stop hstop =>
      left
      apply hstop
  | falls hfalls _ => simp at hfalls
  | @sent label hsends hplaces =>
      right
      obtain ⟨pre, i, post, hcode, hlabel, hnode⟩ := hsends
      obtain ⟨c, t, rfl⟩ : ∃ c t, i = .branch c t label := by
        cases i with
        | branch c t f => exact ⟨c, t, by rw [Option.some.inj hlabel]⟩
        | _ => contradiction
      rw [made_concat_branch, Node.latest, Loop.head, Node.inner.injEq] at hnode
      obtain ⟨rfl, rfl⟩ : pre = before ++ [.place ⟨n⟩] ∧ label = ⟨n + 2⟩ := by
        have hloop := h.writes.code_eq_of_loop
        rw [← hcode] at hloop
        obtain ⟨rest, hbefore⟩ | ⟨rest, rfl, hrest⟩ := append_eq_append_cons hloop
        · have hle : made m.parameters (pre ++ [.branch c t label]) ≤ l.made := by
            rw [← h.made_head, hbefore]
            apply made_le_of_isPrefix
            simp
          rw [made_concat_branch] at hle
          omega
        · cases rest with
          | nil =>
              obtain ⟨heq, -⟩ := List.cons.inj hrest
              simp_all
          | cons i rest =>
              obtain ⟨rfl, -⟩ := List.cons.inj hrest
              have hle : l.made + 1 ≤ made m.parameters
                  (before ++ [.place ⟨n⟩] ++ .branch l.test ⟨n + 1⟩ ⟨n + 2⟩ :: rest) := by
                rw [← h.made_branch]
                apply made_le_of_isPrefix
                simp
              omega
      have hexit : before ++ [.place ⟨n⟩] ++ .branch l.test ⟨n + 1⟩ ⟨n + 2⟩ :: Part.round b n
          ++ .place ⟨n + 2⟩ :: after = m.code := by
        rw [← h.writes.code_eq_of_loop]
        simp
      rw [m.eq_of_places hexit hplaces, h.made_round]

/-- A slot leads ahead, or from the end of a round of a loop to the head. -/
theorem slot_cases
    (ha : m.assembly = .ok a) (hg : a.Finished g)
    (horigin : Origin m.parameters m.code s k) (hs : s.exit ∈ g.exits s.node) :
  k = .stop ∨ s.node.index < k.index
    ∨ ∃ l, m.HasLoop l ∧ g.kind s.node = .block ∧ l.Contains s.node ∧ k = l.head
  := by
  have hlt : ∀ {size size'}, size ≤ size' →
      (Node.latest size).index < (Node.inner size').index := by
    intro size size' hle
    cases size <;> simp only [Node.latest, Node.index] <;> omega
  cases horigin with
  | stop hstop =>
      left
      apply hstop
  | falls hfalls hk =>
      right
      left
      rw [hfalls, hk]
      apply hlt (Nat.le_refl _)
  | @sent label hsends hplaces =>
      right
      obtain ⟨pre, i, post, hcode, hlabel, hnode⟩ := hsends
      have htargets := Instruction.mem_targets_of_label? hlabel
      by_cases hback : label ∈ placed pre
      · right
        obtain ⟨before, c, b, n, after, hwrites, rfl, rfl, hend⟩ :=
          exists_loop_of_back hcode htargets hback
        obtain ⟨l, rfl, hloops⟩ : ∃ l : Loop, l.test = c ∧ m.Loops l before b n after :=
          ⟨_, rfl, loops_of_writes hwrites⟩
        have hexit : s.exit = .next := by
          cases hexit : s.exit with
          | next => rfl
          | _ =>
              rw [hexit] at hlabel
              contradiction
        rw [hexit] at hs
        have hcontains : l.Contains s.node := by
          rw [hend, hloops.made_round] at hnode
          rw [hnode]
          apply Loop.contains_latest _ (Nat.le_refl _)
          · rw [← hnode]
            apply hloops.ne_head ha hg hs
          · rw [← hloops.made_branch, ← hloops.made_round]
            apply made_le_of_isPrefix
            simp
        refine ⟨l, hasLoop_iff.mpr ⟨before, b, n, after, hloops⟩, ?_, hcontains, ?_⟩
        · obtain ⟨i, hi, -⟩ := hcontains
          rw [hi] at hs ⊢
          apply g.kind_inner_of_next hs
        · have hplace : before ++ .place ⟨n⟩ :: .branch l.test ⟨n + 1⟩ ⟨n + 2⟩ ::
              (Part.round b n ++ .place ⟨n + 2⟩ :: after) = m.code := by
            rw [← hwrites.code_eq_of_loop]
            simp
          rw [m.eq_of_places hplace hplaces, Loop.head, ← hloops.made_head, made_concat_place]
      · left
        obtain ⟨outer, rest, hplace, rfl⟩ := hplaces
        rw [hnode]
        apply hlt
        apply made_le_of_isPrefix
        obtain ⟨inner, rfl⟩ | ⟨between, rfl, hbetween⟩ :=
          append_eq_append_cons (hcode.trans hplace.symm)
        · apply absurd _ hback
          simp [Instruction.placed]
        · cases between with
          | nil =>
              obtain ⟨rfl, -⟩ := List.cons.inj hbetween
              contradiction
          | cons i' between =>
              obtain ⟨rfl, -⟩ := List.cons.inj hbetween
              simp

/-- The flow graph of a method has no circles but those of the loops of the method. -/
theorem looped
    (ha : m.assembly = .ok a) (hcomplete : a.complete = .ok g) (hg : a.Finished g) :
  g.Looped m.HasLoop
  where
  slot s k hk := slot_cases ha hg (origin_of_complete ha hcomplete hk)
    (FlowGraph.mem_exits_of_target? hk)
  jump l hl := by
    obtain ⟨before, b, n, after, hloops⟩ := hasLoop_iff.mp hl
    apply (hloops.head ha hg).1
  entry l hl s k hk hcontains := by
    obtain ⟨before, b, n, after, hloops⟩ := hasLoop_iff.mp hl
    apply hloops.entry ha hg (origin_of_complete ha hcomplete hk)
      (FlowGraph.mem_exits_of_target? hk) hcontains
  leaves l hl k hk := by
    obtain ⟨before, b, n, after, hloops⟩ := hasLoop_iff.mp hl
    apply (hloops.leaves (origin_of_complete ha hcomplete hk)).imp_right
    rintro rfl _ ⟨i, rfl, -, hlt⟩
    simpa [Node.index] using hlt

/-- The flow graph of a method is one whose circles are loops. -/
theorem exists_looped
    (m : Method) :
  ∃ a g, m.assembly = .ok a ∧ a.complete = .ok g ∧ m.flowGraph = .ok g ∧ a.Finished g
    ∧ g.Looped m.HasLoop
  := by
  obtain ⟨a, g, ha, hcomplete, hgraph, hg⟩ := m.exists_complete
  exact ⟨a, g, ha, hcomplete, hgraph, hg, looped ha hcomplete hg⟩

/-- In the flow graph of a method only the slots which end a round of a loop lead back, to the head
of the loop.  A loop is entered through its head alone, so the heads dominate the circles, and walks
along paths come back to heads only. -/
theorem flowGraph_loops
    (m : Method) :
  ∃ g, m.flowGraph = .ok g
    ∧ (∀ s k, g.target s = .ok k → k = .stop ∨ s.node.index < k.index
      ∨ ∃ l, m.HasLoop l ∧ g.kind s.node = .block ∧ l.Contains s.node ∧ k = l.head)
    ∧ (∀ l, m.HasLoop l →
      g.kind l.head = .jump ∧ (g.content l.head).observations = [.test l.test]
        ∧ ∀ s k, g.target s = .ok k → l.Contains k → l.Contains s.node ∨ s = ⟨l.head, .ifTrue⟩)
    ∧ (∀ n route, g.Leads n route n → route ≠ [] →
      ∃ l, m.HasLoop l ∧ l.head ∈ route.map Slot.node
        ∧ ∀ k ∈ route.map Slot.node, g.Dominates l.head k)
    ∧ ∀ n ∈ (g.tour MarkedPath .start).refusals, ∃ l, m.HasLoop l ∧ n = l.head
  := by
  obtain ⟨a, g, ha, hcomplete, hgraph, hg, hlooped⟩ := m.exists_looped
  use g, hgraph
  refine ⟨?_, ?_, ?_, ?_⟩
  · intro s k hk
    apply hlooped.slot s k (FlowGraph.target_eq_ok_iff.mp hk)
  · intro l hl
    obtain ⟨before, b, n, after, hloops⟩ := hasLoop_iff.mp hl
    obtain ⟨hkind, htest⟩ := hloops.head ha hg
    use hkind, htest
    intro s k hk hcontains
    apply hlooped.entry l hl s k (FlowGraph.target_eq_ok_iff.mp hk) hcontains
  · intro n route hroute hne
    apply hlooped.exists_head hroute hne
  · intro n hn
    apply hlooped.mem_refusals (wired_of_complete ha hcomplete) hn

end Method

end MethodFlow
