import Mathlib.Data.List.Forall2
import MethodFlow.Proofs.Assembly.Steps
import MethodFlow.Proofs.Execution.Preservation
import MethodFlow.Proofs.LinearCode.Addresses

/-!
# Labels which stand for one another

Two assemblies are alike (`Assembly.Alike`) if their graphs are equal and whatever one of them keeps
for a label, the other one keeps for each label which stands for it.  Many labels may stand for one.
As long as labels which stand for one another are placed together, alike assemblies stay alike
(`Assembly.Alike.emit`).  Labels at the same address stand for one another, so the flow graph of a
method depends on its operations only (`Method.exists_flowGraph_of_operations`).
-/

namespace MethodFlow

open LinearCode

variable {R : Label → Label → Prop}

/-- The cursors stand at the same place, and labels which stand for one another are placed
together. -/
inductive Cursor.Alike (R : Label → Label → Prop) : Cursor → Cursor → Prop where
  | inside (n : Node) : Alike R (.inside n) (.inside n)
  | between (fallsFrom : Option Slot) {labels labels' : List Label}
      (hlabels : ∀ l l', R l l' → (l ∈ labels ↔ l' ∈ labels')) (hnil : labels = [] ↔ labels' = []) :
      Alike R (.between fallsFrom labels) (.between fallsFrom labels')

/-- Instructions which differ in labels which stand for one another. -/
inductive Instruction.Alike (R : Label → Label → Prop) : Instruction → Instruction → Prop where
  | act (x : Action) : Alike R (.act x) (.act x)
  | branch (c : Expr) {t t' f f' : Label} (ht : R t t') (hf : R f f') :
      Alike R (.branch c t f) (.branch c t' f')
  | jump {l l' : Label} (h : R l l') : Alike R (.jump l) (.jump l')

/-- A cursor where no label is placed is like itself. -/
theorem Cursor.alike_self
    {c : Cursor} (h : c.placed = []) :
  c.Alike R c
  := by
  cases c with
  | inside n => apply Alike.inside n
  | between fallsFrom labels =>
      obtain rfl : labels = [] := h
      apply Alike.between fallsFrom _ Iff.rfl
      intro l l' _
      apply iff_of_false List.not_mem_nil List.not_mem_nil

theorem Cursor.Alike.fallsFrom_eq
    {c c' : Cursor} (h : c.Alike R c') :
  c.fallsFrom = c'.fallsFrom
  := by
  cases h <;> rfl

theorem Cursor.Alike.mem_placed_iff
    {c c' : Cursor} (h : c.Alike R c') {l l' : Label} (hl : R l l') :
  l ∈ c.placed ↔ l' ∈ c'.placed
  := by
  cases h with
  | inside n => apply iff_of_false List.not_mem_nil List.not_mem_nil
  | between fallsFrom hlabels hnil => apply hlabels l l' hl

/-- Cursors at the same place are reached or not. -/
theorem Cursor.Alike.isReachable_eq
    {c c' : Cursor} (h : c.Alike R c') :
  c.isReachable = c'.isReachable
  := by
  cases h with
  | inside n => rfl
  | @between fallsFrom labels labels' hlabels hnil =>
      have hempty : labels.isEmpty = labels'.isEmpty := by
        rw [Bool.eq_iff_iff, List.isEmpty_iff, List.isEmpty_iff]
        apply hnil
      rw [isReachable, isReachable, placed_between, placed_between, hempty]
      rfl

theorem Cursor.Alike.eq_inside_iff
    {c c' : Cursor} (h : c.Alike R c') (n : Node) :
  c = .inside n ↔ c' = .inside n
  := by
  cases h <;> simp

namespace Assembly

variable {a a' b b' : Assembly} {l l' : Label} {n n' : Node} {i i' : Instruction} {s : Slot}

/-- The graphs are equal, and what is kept for a label is what is kept for each label which stands
for it. -/
structure Alike (R : Label → Label → Prop) (a b : Assembly) : Prop where
  graph : a.graph = b.graph
  bound : ∀ l l', R l l' → a.node? l = b.node? l'
  deferred : List.Forall₂ (fun w w' => R w.1 w'.1 ∧ w.2 = w'.2) a.deferred b.deferred

theorem Alike.next_eq
    (h : Alike R a b) :
  a.next = b.next
  := by
  rw [next, next, h.graph]

/-- The same slots are led to the next node. -/
theorem Alike.enters_iff
    (h : Alike R a b) (hcursor : a.cursor.Alike R b.cursor) (s : Slot) :
  a.Enters s ↔ b.Enters s
  := by
  have hwaits : (∃ l ∈ a.cursor.placed, (l, s) ∈ a.deferred)
      ↔ ∃ l ∈ b.cursor.placed, (l, s) ∈ b.deferred := by
    have hdeferred := h.deferred
    generalize a.deferred = waiting, b.deferred = waiting' at hdeferred
    induction hdeferred with
    | nil => simp
    | @cons w w' ws ws' hw hrest ih =>
        obtain ⟨l, s₁⟩ := w
        obtain ⟨l', s₁'⟩ := w'
        obtain ⟨hl, rfl⟩ := hw
        simp only [List.mem_cons, Prod.mk.injEq, and_or_left, exists_or, ih]
        have hplaced := hcursor.mem_placed_iff hl
        grind
  rw [Enters, Enters, hcursor.fallsFrom_eq, hwaits]

/-- Assemblies stay alike when they enter the same node. -/
theorem Alike.landed
    (h : Alike R a b) (hcursor : a.cursor.Alike R b.cursor) (n : Node) (g : FlowGraph) :
  Alike R (a.landed n g) (b.landed n g)
  where
  graph := rfl
  bound l l' hl := by
    rw [node?_landed, node?_landed, h.bound l l' hl]
    simp only [hcursor.mem_placed_iff hl]
  deferred := by
    apply List.rel_filter _ h.deferred
    intro w w' hw
    simp only [decide_eq_true_eq, hcursor.mem_placed_iff hw.1]

/-- Assemblies stay alike when they refer to labels which stand for one another. -/
theorem Alike.refer
    (h : Alike R a b) (hl : R l l') (ha : a.refer l s = .ok a') (hb : b.refer l' s = .ok b') :
  Alike R a' b'
  := by
  unfold Assembly.refer at ha hb
  rw [← h.bound l l' hl] at hb
  cases hn : a.node? l with
  | some n =>
      rw [hn] at ha hb
      obtain ⟨g, hg, hreturn⟩ := ok_of_bind ha
      obtain ⟨g', hg', hreturn'⟩ := ok_of_bind hb
      rw [← h.graph] at hg'
      obtain rfl := Except.ok.inj (hg.symm.trans hg')
      cases hreturn
      cases hreturn'
      exact ⟨rfl, h.bound, h.deferred⟩
  | none =>
      rw [hn] at ha hb
      cases ha
      cases hb
      refine ⟨h.graph, h.bound, ?_⟩
      apply List.rel_append h.deferred
      apply List.Forall₂.cons ⟨hl, rfl⟩ List.Forall₂.nil

/-- Alike assemblies open the same block. -/
theorem Alike.openBlock
    (h : Alike R a b) (hcursor : a.cursor.Alike R b.cursor) (hsound : a.Sound) (hsound' : b.Sound)
    (ha : a.openBlock = .ok (n, a')) (hb : b.openBlock = .ok (n', b')) :
  n = n' ∧ Alike R a' b'
  := by
  obtain ⟨hinside, rfl⟩ | ⟨g, hbetween, hgrown, rfl, rfl⟩ := hsound.openBlock_cases ha
  · have hinside' := (hcursor.eq_inside_iff n).mp hinside
    obtain ⟨hb, rfl⟩ | ⟨g', hbetween', -⟩ := hsound'.openBlock_cases hb
    · rw [hinside'] at hb
      exact ⟨Cursor.inside.inj hb, h⟩
    · apply absurd hinside' (hbetween' n)
  · obtain ⟨hinside', -⟩ | ⟨g', -, hgrown', rfl, rfl⟩ := hsound'.openBlock_cases hb
    · apply absurd ((hcursor.eq_inside_iff n').mpr hinside') (hbetween n')
    · obtain rfl := hgrown.unique hgrown' h.graph (h.enters_iff hcursor)
      rw [← h.next_eq]
      exact ⟨rfl, h.landed hcursor a.next g⟩

/-- Assemblies stay alike when their graphs are changed in the same way, wherever the cursors
move. -/
theorem Alike.change
    (h : Alike R a b) (f : FlowGraph → FlowGraph) (c c' : Cursor) :
  Alike R { a with graph := f a.graph, cursor := c } { b with graph := f b.graph, cursor := c' }
  := ⟨congrArg f h.graph, h.bound, h.deferred⟩

theorem Alike.moveTo
    (h : Alike R a b) (c c' : Cursor) :
  Alike R (a.moveTo c) (b.moveTo c')
  := h.change id c c'

/-- Assemblies stay alike when instructions are emitted which differ in labels which stand for one
another.  No label is placed at the cursor then. -/
theorem Alike.emit
    (h : Alike R a b) (hcursor : a.cursor.Alike R b.cursor) (hsound : a.Sound) (hsound' : b.Sound)
    (hi : i.Alike R i') (ha : a.emit i = .ok a') (hb : b.emit i' = .ok b') :
  Alike R a' b' ∧ a'.cursor = b'.cursor ∧ a'.cursor.placed = []
  := by
  cases hi with
  | act x =>
      obtain ⟨n, a₁, hopen, hcases⟩ := emit_act_cases ha
      obtain ⟨n', b₁, hopen', hcases'⟩ := emit_act_cases hb
      obtain ⟨rfl, h₁⟩ := h.openBlock hcursor hsound hsound' hopen hopen'
      obtain ⟨hx, rfl⟩ | ⟨hx, -, rfl⟩ := hcases
      · obtain ⟨-, rfl⟩ | ⟨hx', -⟩ := hcases'
        · exact ⟨h₁.change (·.extend n x) _ _, rfl, rfl⟩
        · rw [hx] at hx'
          contradiction
      · obtain ⟨hx', -⟩ | ⟨-, -, rfl⟩ := hcases'
        · rw [hx] at hx'
          contradiction
        · exact ⟨h₁.change (fun g => (g.extend n x).redirect ⟨n, .next⟩ .stop) _ _, rfl, rfl⟩
  | branch c ht hf =>
      obtain ⟨g, a₁, a₂, hgrown, htrue, hfalse, rfl⟩ := hsound.emit_branch_cases ha
      obtain ⟨g', b₁, b₂, hgrown', htrue', hfalse', rfl⟩ := hsound'.emit_branch_cases hb
      obtain rfl := hgrown.unique hgrown' h.graph (h.enters_iff hcursor)
      rw [← h.next_eq] at htrue' hfalse'
      have h₁ := (h.landed hcursor a.next g).refer ht htrue htrue'
      have h₂ := h₁.refer hf hfalse hfalse'
      exact ⟨h₂.moveTo _ _, rfl, rfl⟩
  | jump hl =>
      cases hreachable : a.cursor.isReachable with
      | true =>
          obtain ⟨hnowhere, -⟩ | ⟨n, a₁, a₂, hopen, hrefer, rfl⟩ := emit_jump_cases ha
          · rw [hnowhere] at hreachable
            contradiction
          · obtain ⟨hnowhere, -⟩ | ⟨n', b₁, b₂, hopen', hrefer', rfl⟩ := emit_jump_cases hb
            · rw [hcursor.isReachable_eq, hnowhere] at hreachable
              contradiction
            · obtain ⟨rfl, h₁⟩ := h.openBlock hcursor hsound hsound' hopen hopen'
              exact ⟨(h₁.refer hl hrefer hrefer').moveTo _ _, rfl, rfl⟩
      | false =>
          have hreachable' := hcursor.isReachable_eq.symm.trans hreachable
          obtain rfl := Except.ok.inj ((emit_jump_of_not_reachable hreachable _).1.symm.trans ha)
          obtain rfl := Except.ok.inj ((emit_jump_of_not_reachable hreachable' _).1.symm.trans hb)
          rw [eq_nowhere_of_not_reachable hreachable, eq_nowhere_of_not_reachable hreachable']
          exact ⟨h, rfl, rfl⟩

/-- Cursors at the same place stay there when labels are placed together. -/
theorem exists_emitAll_places
    (h : Alike R a b) (hcursor : a.cursor = b.cursor) (hplaced : a.cursor.placed = [])
    {labels labels' : List Label} (hlabels : ∀ l l', R l l' → (l ∈ labels ↔ l' ∈ labels'))
    (hnil : labels = [] ↔ labels' = []) :
  ∃ a' b', a.emitAll (labels.map .place) = .ok a' ∧ b.emitAll (labels'.map .place) = .ok b'
    ∧ Alike R a' b' ∧ a'.cursor.Alike R b'.cursor
  := by
  cases labels with
  | nil =>
      obtain rfl := hnil.mp rfl
      use a, b, rfl, rfl, h
      rw [← hcursor]
      apply Cursor.alike_self hplaced
  | cons l labels =>
      cases labels' with
      | nil => cases hnil.mpr rfl
      | cons l' labels' =>
          refine ⟨_, _, a.emitAll_places l labels, b.emitAll_places l' labels', h.moveTo _ _, ?_⟩
          rw [← hcursor, hplaced]
          apply Cursor.Alike.between a.cursor.fallsFrom hlabels hnil

end Assembly

/-! ### Code with the same operations -/

variable {address address' : Label → Nat} {labels labels' : List Label} {p : Nat}
  {code code' : List Instruction} {ops : List Operation} {a a' b b' : Assembly}

/-- Labels of two pieces of code which are at the same address. -/
structure LinearCode.SameAddress (address address' : Label → Nat) (labels labels' : List Label)
    (l l' : Label) : Prop where
  left : l ∈ labels
  right : l' ∈ labels'
  eq : address l = address' l'

/-- Instructions with the same operation differ in labels at the same address. -/
theorem Instruction.alike_of_operation?
    {i i' : Instruction} {op : Operation} (hi : i.operation? address = some op)
    (hi' : i'.operation? address' = some op) (hlabels : i.targets ⊆ labels)
    (hlabels' : i'.targets ⊆ labels') :
  i.Alike (SameAddress address address' labels labels') i'
  := by
  cases i with
  | place l => contradiction
  | act x =>
      cases hi
      cases i' <;> cases hi'
      apply Alike.act x
  | branch c t f =>
      cases hi
      cases i' with
      | branch c' t' f' =>
          obtain ⟨hc, ht, hf⟩ := Operation.branch.inj (Option.some.inj hi')
          obtain ⟨htl, hfl⟩ := List.cons_subset.mp hlabels
          obtain ⟨htl', hfl'⟩ := List.cons_subset.mp hlabels'
          rw [hc]
          apply Alike.branch c ⟨htl, htl', ht.symm⟩
          exact ⟨hfl List.mem_cons_self, hfl' List.mem_cons_self, hf.symm⟩
      | _ => cases hi'
  | jump l =>
      cases hi
      cases i' with
      | jump l' =>
          have hl := Operation.jump.inj (Option.some.inj hi')
          apply Alike.jump
          exact ⟨hlabels List.mem_cons_self, hlabels' List.mem_cons_self, hl.symm⟩
      | _ => cases hi'

namespace Assembly

/-- Alike assemblies stay alike when the labels at one address are placed. -/
theorem Alike.exists_emitAll_group
    (h : Alike (SameAddress address address' labels labels') a b) (hcursor : a.cursor = b.cursor)
    (hplaced : a.cursor.placed = [])
    (hsame : ∀ q, q ∈ labels.map address ↔ q ∈ labels'.map address') {group group' : List Label}
    (hgroup : ∀ l, l ∈ group ↔ l ∈ labels ∧ address l = p)
    (hgroup' : ∀ l, l ∈ group' ↔ l ∈ labels' ∧ address' l = p) :
  ∃ a' b', a.emitAll (group.map .place) = .ok a' ∧ b.emitAll (group'.map .place) = .ok b'
    ∧ Alike (SameAddress address address' labels labels') a' b'
    ∧ a'.cursor.Alike (SameAddress address address' labels labels') b'.cursor
  := by
  apply exists_emitAll_places h hcursor hplaced
  · intro l l' ⟨hl, hl', heq⟩
    simp only [hgroup, hgroup', hl, hl', heq, true_and]
  · have hnonempty : (∃ l, l ∈ group) ↔ ∃ l, l ∈ group' := by
      simpa only [List.mem_map, hgroup, hgroup'] using hsame p
    simp only [List.eq_nil_iff_forall_not_mem, ← not_exists, hnonempty]

/-- Alike assemblies stay alike when code with the same operations is emitted, if there are labels
at the same addresses. -/
theorem Alike.emitAll
    (h : Alike (SameAddress address address' labels labels') a b) (hcursor : a.cursor = b.cursor)
    (hplaced : a.cursor.placed = []) (hsound : a.Sound) (hsound' : b.Sound)
    (hsame : ∀ q, q ∈ labels.map address ↔ q ∈ labels'.map address')
    (hcode : Remains address labels p code ops) (hcode' : Remains address' labels' p code' ops)
    (ha : a.emitAll code = .ok a') (hb : b.emitAll code' = .ok b') :
  Alike (SameAddress address address' labels labels') a' b'
    ∧ a'.cursor.Alike (SameAddress address address' labels labels') b'.cursor
  := by
  -- Operation by operation: in front of one, both assemblies place the labels at its address, and
  -- behind it no label is left at the cursor.
  induction ops generalizing p code code' a b with
  | nil =>
      obtain ⟨group, rest, rfl, hgroup, hrest⟩ := hcode.cases
      obtain ⟨group', rest', rfl, hgroup', hrest'⟩ := hcode'.cases
      obtain rfl : rest = [] := hrest
      obtain rfl : rest' = [] := hrest'
      obtain ⟨a₁, b₁, ha₁, hb₁, h₁, hcursor₁⟩ :=
        h.exists_emitAll_group hcursor hplaced hsame hgroup hgroup'
      rw [List.append_nil] at ha hb
      obtain rfl := Except.ok.inj (ha₁.symm.trans ha)
      obtain rfl := Except.ok.inj (hb₁.symm.trans hb)
      exact ⟨h₁, hcursor₁⟩
  | cons op ops ih =>
      obtain ⟨group, _, rfl, hgroup, i, rest, rfl, hi, hil, hrest⟩ := hcode.cases
      obtain ⟨group', _, rfl, hgroup', i', rest', rfl, hi', hil', hrest'⟩ := hcode'.cases
      obtain ⟨a₁, b₁, ha₁, hb₁, h₁, hcursor₁⟩ :=
        h.exists_emitAll_group hcursor hplaced hsame hgroup hgroup'
      rw [emitAll_append, ha₁] at ha
      rw [emitAll_append, hb₁] at hb
      obtain ⟨a₂, ha₂, ha⟩ : ∃ a₂, a₁.emit i = .ok a₂ ∧ a₂.emitAll rest = .ok a' := ok_of_bind ha
      obtain ⟨b₂, hb₂, hb⟩ : ∃ b₂, b₁.emit i' = .ok b₂ ∧ b₂.emitAll rest' = .ok b' := ok_of_bind hb
      have hsound₁ := hsound.of_emitAll ha₁
      have hsound₁' := hsound'.of_emitAll hb₁
      obtain ⟨h₂, hcursor₂, hplaced₂⟩ := h₁.emit hcursor₁ hsound₁ hsound₁'
        (Instruction.alike_of_operation? hi hi' hil hil') ha₂ hb₂
      apply ih h₂ hcursor₂ hplaced₂ (hsound₁.of_emit ha₂) (hsound₁'.of_emit hb₂) hrest hrest' ha hb

end Assembly

/-! ### Methods with the same operations -/

/-- The code of a method has the operations of its body, whatever addresses its labels have. -/
theorem Method.exists_remains
    (m : Method) :
  ∃ address, Remains address (placed m.code) 0 m.code (Stmt.bodyOperations 0 m.body)
  := by
  obtain ⟨address, hlocated⟩ := exists_located m.nodup_placed 0
  use address, hlocated, Stmt.operations_bodyCode hlocated
  · simp
  · apply m.targets_subset

/-- The addresses of the labels of a method are those to which its operations jump. -/
theorem Method.mem_address_iff
    {m : Method} (h : Remains address (placed m.code) 0 m.code ops) (q : Nat) :
  q ∈ (placed m.code).map address ↔ q ∈ ops.flatMap Operation.targets
  := by
  have hsame : ∀ l, l ∈ placed m.code ↔ l ∈ targets m.code := by
    intro l
    constructor
    · apply Stmt.placed_subset_bodyCode m.body 0
    · apply m.targets_subset
  rw [← h.reads, targets_operations]
  simp only [List.mem_map, hsame]

/-- Methods with the same parameters and the same operations have the same flow graph. -/
theorem Method.exists_flowGraph_of_operations
    {m m' : Method} (hparameters : m.parameters = m'.parameters)
    (hoperations : Stmt.bodyOperations 0 m.body = Stmt.bodyOperations 0 m'.body) :
  ∃ g, m.flowGraph = .ok g ∧ m'.flowGraph = .ok g
  := by
  obtain ⟨address, hcode⟩ := m.exists_remains
  obtain ⟨address', hcode'⟩ := m'.exists_remains
  rw [← hoperations] at hcode'
  have hsame : ∀ q, q ∈ (placed m.code).map address ↔ q ∈ (placed m'.code).map address' := by
    intro q
    rw [mem_address_iff hcode, mem_address_iff hcode']
  obtain ⟨a, g, ha, hcomplete, hgraph, -⟩ := m.exists_complete
  obtain ⟨b, g', hb, hcomplete', hgraph', -⟩ := m'.exists_complete
  have hinitial : Assembly.Alike (SameAddress address address' (placed m.code) (placed m'.code))
      (.initial m.parameters) (.initial m'.parameters) := by
    rw [hparameters]
    exact ⟨rfl, fun _ _ _ => rfl, List.Forall₂.nil⟩
  have hsound := Assembly.sound_initial m.parameters
  have hsound' := Assembly.sound_initial m'.parameters
  obtain ⟨hab, hcursor⟩ :=
    hinitial.emitAll rfl rfl hsound hsound' hsame hcode hcode' ha hb
  have hrewired := (hsound.of_emitAll ha).rewired_of_complete hcomplete
  have hrewired' := (hsound'.of_emitAll hb).rewired_of_complete hcomplete'
  rw [← hab.graph] at hrewired'
  obtain rfl := hrewired.unique (hrewired'.congr fun s => (hab.enters_iff hcursor s).symm)
  exact ⟨g, hgraph, hgraph'⟩

end MethodFlow
