import MethodFlow.Proofs.Assembly.Origin
import MethodFlow.Proofs.Execution.Preservation
import MethodFlow.Proofs.LinearCode.Constructs

/-!
# The order in which labels are bound

While code is emitted, the labels bound so far, followed by those which wait at the cursor for the
next node, are the labels placed so far, and each node is bound to before the nodes made later:
`Assembly.Binds`.  When the construction is closed, what waits at the cursor is bound to the stop.
So building the graph of a method binds its labels in the order in which they are placed, each one
once, to nodes in the order of creation and then to the stop (`Method.build_binds`).
-/

namespace MethodFlow

open LinearCode

namespace Assembly

variable {parameters : List Parameter} {a a' closed : Assembly} {c : Content} {g : FlowGraph}
  {code : List Instruction} {i : Instruction} {l : Label} {s : Slot} {b : Node} {cursor : Cursor}

/-- The labels placed by the code are bound, in the order in which they were placed, or wait at the
cursor.  They are bound to inner nodes made so far, to earlier ones before later ones. -/
structure Binds (code : List Instruction) (a : Assembly) : Prop where
  labels : a.bindingLog.map Prod.fst ++ a.cursor.placed = placed code
  inner : ∀ x ∈ a.bindingLog, ∃ i < a.graph.cells.size, x.2 = .inner i
  ascending : a.bindingLog.Pairwise fun x y => x.2.index ≤ y.2.index

theorem binds_initial
    (parameters : List Parameter) :
  Binds [] (initial parameters)
  where
  labels := rfl
  inner _ hx := absurd hx List.not_mem_nil
  ascending := List.Pairwise.nil

/-- What binds no label and places none keeps the order. -/
theorem Binds.keep
    (h : Binds code a) (hbindings : a'.bindings = a.bindings)
    (hplaced : a'.cursor.placed = a.cursor.placed)
    (hsize : a.graph.cells.size ≤ a'.graph.cells.size) :
  Binds code a'
  := by
  have hlog : a'.bindingLog = a.bindingLog := congrArg List.reverse hbindings
  constructor
  · rw [hlog, hplaced, h.labels]
  · intro x hx
    obtain ⟨i, hi, hinner⟩ := h.inner x (hlog ▸ hx)
    exact ⟨i, Nat.lt_of_lt_of_le hi hsize, hinner⟩
  · rw [hlog]
    apply h.ascending

theorem Binds.concat
    (h : Binds code a) (hi : i.placed = []) :
  Binds (code ++ [i]) a
  := by
  constructor
  · rw [h.labels, placed_append, placed_cons, hi]
    simp
  · apply h.inner
  · apply h.ascending

theorem bindingLog_landed
    (a : Assembly) (n : Node) (g : FlowGraph) :
  (a.landed n g).bindingLog = a.bindingLog ++ a.cursor.placed.map (·, n)
  := by
  rw [bindingLog, landed, List.reverse_append, List.reverse_reverse]
  rfl

/-- A new node is bound to after all others. -/
theorem Grown.binds
    (hgrown : a.Grown c g) (h : Binds code a) (hcursor : cursor.placed = []) :
  Binds code ((a.landed a.next g).moveTo cursor)
  := by
  have hlog : ((a.landed a.next g).moveTo cursor).bindingLog
      = a.bindingLog ++ a.cursor.placed.map (·, a.next) := a.bindingLog_landed a.next g
  have hsize : ((a.landed a.next g).moveTo cursor).graph.cells.size = a.graph.cells.size + 1 :=
    hgrown.size
  constructor
  · rw [hlog, cursor_moveTo, hcursor, List.append_nil, List.map_append, List.map_map, ← h.labels]
    congr 1
    apply List.map_id
  · rw [hlog, hsize]
    intro x hx
    obtain hx | hx := List.mem_append.mp hx
    · obtain ⟨i, hi, hinner⟩ := h.inner x hx
      exact ⟨i, Nat.lt_succ_of_lt hi, hinner⟩
    · obtain ⟨l, -, rfl⟩ := List.mem_map.mp hx
      exact ⟨a.graph.cells.size, Nat.lt_succ_self _, rfl⟩
  · rw [hlog, List.pairwise_append]
    refine ⟨h.ascending, ?_, ?_⟩
    · rw [List.pairwise_map]
      apply List.pairwise_of_forall
      intro _ _
      apply Nat.le_refl
    · intro x hx y hy
      obtain ⟨i, hi, hinner⟩ := h.inner x hx
      obtain ⟨l, -, rfl⟩ := List.mem_map.mp hy
      rw [hinner, next, Node.index, Node.index]
      omega

/-- Opening a block keeps the order. -/
theorem Binds.openBlock
    (hsound : a.Sound) (h : Binds code a) (hopen : a.openBlock = .ok (b, a')) :
  Binds code (a'.moveTo (.inside b))
  := by
  obtain ⟨hcursor, rfl⟩ | ⟨g, -, hgrown, rfl, rfl⟩ := hsound.openBlock_cases hopen
  · apply Binds.keep h
    · rfl
    · rw [hcursor]
      rfl
    · apply Nat.le_refl
  · apply hgrown.binds h rfl

/-- Referring to a label keeps the order. -/
theorem Binds.refer
    (h : Binds code (a.moveTo cursor)) (hrefer : a.refer l s = .ok a') :
  Binds code (a'.moveTo cursor)
  := by
  have hbindings : a'.bindings = a.bindings := by
    obtain ⟨n, -, -, rfl⟩ | rfl := refer_cases hrefer
    · rfl
    · rfl
  apply Binds.keep h
  · apply hbindings
  · rfl
  · apply Nat.le_of_eq (size_refer hrefer).symm

theorem Binds.emit_place
    (h : Binds code a) (l : Label) :
  Binds (code ++ [.place l])
    (a.moveTo (.between a.cursor.fallsFrom (a.cursor.placed ++ [l])))
  := by
  constructor
  · rw [placed_append, ← h.labels, List.append_assoc]
    rfl
  · apply h.inner
  · apply h.ascending

/-- An action keeps the order. -/
theorem Binds.emit_act
    (hsound : a.Sound) (h : Binds code a) {x : Action} (hemit : a.emit (.act x) = .ok a') :
  Binds (code ++ [.act x]) a'
  := by
  obtain ⟨b, a₁, hopen, hcases⟩ := emit_act_cases hemit
  have hinside := (h.openBlock hsound hopen).concat (i := .act x) rfl
  have hextended : a₁.graph.cells.size ≤ (a₁.graph.extend b x).cells.size :=
    Nat.le_of_eq (a₁.graph.cells_size_extend b x).symm
  obtain ⟨-, rfl⟩ | ⟨-, hexit, rfl⟩ := hcases
  · apply Binds.keep hinside
    · rfl
    · rfl
    · apply hextended
  · rw [FlowGraph.exits, ← FlowGraph.kind_extend a₁.graph b x] at hexit
    have hsize := (FlowGraph.rewired_redirect (s := ⟨b, .next⟩) hexit .stop).size
    apply Binds.keep hinside
    · rfl
    · rfl
    · apply Nat.le_trans hextended (Nat.le_of_eq hsize.symm)

/-- Every instruction keeps the order. -/
theorem Binds.emit
    (hsound : a.Sound) (h : Binds code a) (hemit : a.emit i = .ok a') :
  Binds (code ++ [i]) a'
  := by
  cases i with
  | place l =>
      cases hemit
      apply h.emit_place
  | act x => apply h.emit_act hsound hemit
  | branch x ifTrue ifFalse =>
      obtain ⟨g, a₁, a₂, hgrown, htrue, hfalse, rfl⟩ := hsound.emit_branch_cases hemit
      apply Binds.refer _ hfalse
      apply Binds.refer _ htrue
      apply hgrown.binds (h.concat rfl) rfl
  | jump l =>
      obtain ⟨-, rfl⟩ | ⟨b, a₁, a₂, hopen, hrefer, rfl⟩ := emit_jump_cases hemit
      · apply h.concat rfl
      · apply Binds.refer _ hrefer
        apply Binds.keep ((h.openBlock hsound hopen).concat (i := .jump l) rfl)
        · rfl
        · rfl
        · apply Nat.le_refl

/-- Code of any length binds its labels in order. -/
theorem binds
    (h : (initial parameters).emitAll code = .ok a) :
  Binds code a
  := by
  apply emitAll_induction (P := Binds) (binds_initial parameters) ?step h
  case step =>
    intro code i a a' _ hsound hbinds hemit
    apply hbinds.emit hsound hemit

/-- When a construction is closed, the labels at the cursor are bound to the stop. -/
theorem Sound.bindingLog_close
    (h : a.Sound) (hclose : a.close = .ok closed) :
  closed.bindingLog = a.bindingLog ++ a.cursor.placed.map (·, .stop)
  := by
  cases hreachable : a.cursor.isReachable with
  | true =>
      obtain ⟨g, hland, -⟩ := land_eq
        (fun s hs => h.has s (mem_openSlots.mpr (Or.inl hs)))
        (fun w hw => h.has w.2 (mem_openSlots.mpr (Or.inr ⟨w.1, hw⟩))) .stop
      rw [close, if_pos hreachable, hland] at hclose
      cases hclose
      apply a.bindingLog_landed .stop g
  | false =>
      rw [close, if_neg (by simp [hreachable])] at hclose
      cases hclose
      rw [eq_nowhere_of_not_reachable hreachable]
      simp [Cursor.nowhere, bindingLog, Assembly.moveTo]

end Assembly

/-- Building the flow graph of a method binds the labels which its constructs take, each one once
and in the order in which the code places them.  They are bound to inner nodes, never to an earlier
one than before, and from some binding on to the stop. -/
theorem Method.build_binds
    (m : Method) :
  ∃ g, ∃ log inner : List (Label × Node), ∃ outer : List Label, m.flowGraph = .ok g
    ∧ (∀ w, Job.build m w = .ok () { w with
      graph := g
      log := w.log ++ (log.map (fun x => .bound x.1 x.2) ++ [.built m.name g.size]) })
    ∧ log.map Prod.fst = placed m.code
    ∧ (placed m.code).Perm ((List.range (2 * m.constructs.count .arm
        + m.constructs.count .chain + 3 * m.constructs.count .loop)).map Label.mk)
    ∧ ((Stmt.bodyCode m.body).run 0).2
      = 2 * m.constructs.count .arm + m.constructs.count .chain + 3 * m.constructs.count .loop
    ∧ log = inner ++ outer.map (·, .stop)
    ∧ (∀ x ∈ inner, ∃ i, x.2 = .inner i ∧ x.2 ∈ g.nodes)
    ∧ inner.Pairwise fun x y => x.2.index ≤ y.2.index
  := by
  obtain ⟨a, g, ha, hcomplete, hgraph, -⟩ := m.exists_complete
  have hsound := Assembly.sound_of_emitAll ha
  have hbinds := Assembly.binds ha
  obtain ⟨closed, hclosed, hresult⟩ := ok_of_bind hcomplete
  have hlog := hsound.bindingLog_close hclosed
  use g, closed.bindingLog, a.bindingLog, a.cursor.placed, hgraph
  refine ⟨Job.build_eq ha hclosed hresult, ?labels, m.perm_placed, ?taken, hlog, ?inner,
    hbinds.ascending⟩
  case labels =>
    rw [hlog, List.map_append, List.map_map, ← hbinds.labels]
    congr 1
    apply List.map_id
  case taken =>
    rw [Stmt.run_bodyCode_snd, Nat.zero_add]
    rfl
  case inner =>
    intro x hx
    obtain ⟨i, hi, hinner⟩ := hbinds.inner x hx
    use i, hinner
    rw [hinner, FlowGraph.inner_mem_nodes_iff, (hsound.rewired_of_complete hcomplete).size]
    apply hi

end MethodFlow
