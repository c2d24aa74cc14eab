import MethodFlow.Proofs.Assembly.Stage
import MethodFlow.Proofs.Assembly.Steps

/-!
# Where slots lead

`Assembly.made` counts the nodes which are made while code is emitted, so it tells at which
instruction a node was made.  A slot of a finished graph leads to the stop, or to the node made
right after its own, or an instruction sends it to a label and it leads to the node which was made
next where the label is placed: `Assembly.Origin`.  `Assembly.Traced` says the same of a graph under
construction, dead code included, and each operation of an assembly keeps it.
-/

namespace MethodFlow

open LinearCode

/-- The node made last when `size` inner nodes have been made, which is the start if there is
none. -/
def Node.latest : Nat → Node
  | 0 => .start
  | i + 1 => .inner i

/-- The label to which an instruction sends an exit. -/
def Instruction.label? : Instruction → Exit → Option Label
  | .branch _ t _, .ifTrue => some t
  | .branch _ _ f, .ifFalse => some f
  | .jump l, .next => some l
  | _, _ => none

theorem Instruction.mem_targets_of_label?
    {i : Instruction} {p : Exit} {l : Label} (h : i.label? p = some l) :
  l ∈ i.targets
  := by
  cases i <;> cases p <;> simp_all [label?, targets]

namespace Assembly

variable {parameters : List Parameter} {a a' : Assembly} {c : Content} {g : FlowGraph}
  {code before after : List Instruction} {i : Instruction} {l : Label} {s : Slot} {n m b : Node}

/-! ### Counting nodes -/

/-- The number of inner nodes which are made while the code is emitted. -/
def made (parameters : List Parameter) (code : List Instruction) : Nat :=
  ((initial parameters).emitAll code).toOption.elim 0 fun a => a.graph.cells.size

theorem made_eq
    (h : (initial parameters).emitAll code = .ok a) :
  made parameters code = a.graph.cells.size
  := by
  rw [made, h]
  rfl

/-- More code makes more nodes. -/
theorem made_le_of_isPrefix
    (parameters : List Parameter) (h : before <+: code) :
  made parameters before ≤ made parameters code
  := by
  obtain ⟨after, rfl⟩ := h
  obtain ⟨a, ha, hsound, -⟩ := (sound_initial parameters).emitAll before
  obtain ⟨a', ha', -, hevolves⟩ := hsound.emitAll after
  have hcode : (initial parameters).emitAll (before ++ after) = .ok a' := by
    rw [emitAll_append, ha]
    apply ha'
  rw [made_eq ha, made_eq hcode]
  apply hevolves.size

@[simp]
theorem made_concat_place
    (parameters : List Parameter) (code : List Instruction) (l : Label) :
  made parameters (code ++ [.place l]) = made parameters code
  := by
  obtain ⟨a, ha, -, -⟩ := (sound_initial parameters).emitAll code
  have hcode : (initial parameters).emitAll (code ++ [.place l])
      = .ok (a.moveTo (.between a.cursor.fallsFrom (a.cursor.placed ++ [l]))) := by
    rw [emitAll_concat, ha]
    rfl
  rw [made_eq ha, made_eq hcode]
  rfl

theorem size_refer
    (h : a.refer l s = .ok a') :
  a'.graph.cells.size = a.graph.cells.size
  := by
  obtain ⟨n, -, hexit, rfl⟩ | rfl := refer_cases h
  · apply (FlowGraph.rewired_redirect hexit n).size
  · rfl

theorem Sound.size_emit_branch
    {x : Expr} {ifTrue ifFalse : Label} (h : a.Sound)
    (hemit : a.emit (.branch x ifTrue ifFalse) = .ok a') :
  a'.graph.cells.size = a.graph.cells.size + 1
  := by
  obtain ⟨g, a₁, a₂, hgrown, htrue, hfalse, rfl⟩ := h.emit_branch_cases hemit
  apply (size_refer hfalse).trans
  apply (size_refer htrue).trans
  apply hgrown.size

theorem made_concat_branch
    (parameters : List Parameter) (code : List Instruction) (x : Expr) (ifTrue ifFalse : Label) :
  made parameters (code ++ [.branch x ifTrue ifFalse]) = made parameters code + 1
  := by
  obtain ⟨a, ha, hsound, -⟩ := (sound_initial parameters).emitAll code
  obtain ⟨a', ha', -⟩ := hsound.emit (.branch x ifTrue ifFalse)
  have hcode : (initial parameters).emitAll (code ++ [.branch x ifTrue ifFalse]) = .ok a' := by
    rw [emitAll_concat, ha]
    apply ha'
  rw [made_eq ha, made_eq hcode]
  apply hsound.size_emit_branch ha'

/-! ### Origins -/

/-- An instruction of the code sends the slot, which belongs to the node made last then, to the
label. -/
def Sends (parameters : List Parameter) (code : List Instruction) (s : Slot) (l : Label) : Prop :=
  ∃ before i after, before ++ i :: after = code ∧ i.label? s.exit = some l
    ∧ s.node = .latest (made parameters (before ++ [i]))

/-- The label is placed where the node is made next. -/
def Places (parameters : List Parameter) (code : List Instruction) (l : Label) (n : Node) : Prop :=
  ∃ before after, before ++ .place l :: after = code ∧ n = .inner (made parameters before)

/-- The slot may lead to the node. -/
inductive Origin (parameters : List Parameter) (code : List Instruction) (s : Slot) (n : Node) :
    Prop where
  | stop (h : n = .stop)
  /-- The node was made right after that of the slot. -/
  | falls {k : Nat} (hs : s = ⟨.latest k, .next⟩) (hn : n = .inner k)
  /-- The slot was sent to a label. -/
  | sent {l : Label} (hs : Sends parameters code s l) (hn : Places parameters code l n)

/-- After the code was emitted, every slot leads where it may, or is going to. -/
structure Traced (parameters : List Parameter) (code : List Instruction) (a : Assembly) :
    Prop where
  slot : ∀ (s : Slot) n, (a.graph.content s.node).target? s.exit = some n →
    Origin parameters code s n
  falls : ∀ s, a.cursor.fallsFrom = some s → s = ⟨.latest a.graph.cells.size, .next⟩
  deferred : ∀ l s, (l, s) ∈ a.deferred → Sends parameters code s l
  bound : ∀ l n, a.node? l = some n → Places parameters code l n
  placed : ∀ l ∈ a.cursor.placed, Places parameters code l a.next

theorem Sends.append
    (h : Sends parameters code s l) (rest : List Instruction) :
  Sends parameters (code ++ rest) s l
  := by
  obtain ⟨before, i, after, rfl, hlabel, hs⟩ := h
  use before, i, after ++ rest
  simp [hlabel, hs]

theorem Places.append
    (h : Places parameters code l n) (rest : List Instruction) :
  Places parameters (code ++ rest) l n
  := by
  obtain ⟨before, after, rfl, hn⟩ := h
  use before, after ++ rest
  simp [hn]

theorem Origin.append
    (h : Origin parameters code s n) (rest : List Instruction) :
  Origin parameters (code ++ rest) s n
  := by
  cases h with
  | stop h => exact stop h
  | falls hs hn => exact falls hs hn
  | sent hs hn => exact sent (hs.append rest) (hn.append rest)

theorem Traced.append
    (h : Traced parameters code a) (rest : List Instruction) :
  Traced parameters (code ++ rest) a
  where
  slot s n hs := (h.slot s n hs).append rest
  falls := h.falls
  deferred l s hs := (h.deferred l s hs).append rest
  bound l n hn := (h.bound l n hn).append rest
  placed l hl := (h.placed l hl).append rest

/-- At the beginning no slot is set. -/
theorem traced_initial
    (parameters : List Parameter) :
  Traced parameters [] (initial parameters)
  := by
  constructor
  · rintro ⟨n, p⟩ m hm
    cases n <;> cases p <;> contradiction
  · intro s hs
    exact (Option.some.inj hs).symm
  · intro l s hs
    contradiction
  · intro l n hn
    contradiction
  · intro l hl
    contradiction

/-! ### Single operations -/

theorem Traced.leave
    (h : Traced parameters code a) :
  Traced parameters code (a.moveTo .nowhere)
  where
  slot := h.slot
  falls s hs := by contradiction
  deferred := h.deferred
  bound := h.bound
  placed l hl := by contradiction

theorem Traced.origin_next
    (h : Traced parameters code a) (hs : a.Enters s) :
  Origin parameters code s a.next
  := by
  obtain hfalls | ⟨l, hl, hdeferred⟩ := hs
  · exact Origin.falls (h.falls s hfalls) rfl
  · exact Origin.sent (h.deferred l s hdeferred) (h.placed l hl)

/-- When a new node has been entered, every slot is traced. -/
theorem Grown.traced
    (hgrown : a.Grown c g) (h : Traced parameters code a) :
  Traced parameters code ((a.landed a.next g).moveTo (.inside a.next))
  := by
  constructor
  · intro s n hn
    change (g.content s.node).target? s.exit = some n at hn
    by_cases hold : s.node ∈ a.graph.nodes
    · by_cases henters : a.Enters s
      · obtain rfl := Option.some.inj ((hgrown.led s henters).symm.trans hn)
        apply h.origin_next henters
      · apply h.slot s n ((hgrown.kept s hold henters).symm.trans hn)
    · have hnew := FlowGraph.mem_nodes_of_target? hn
      rw [hgrown.eq_next hold hnew, hgrown.unset_next] at hn
      contradiction
  · intro s hs
    obtain rfl := Option.some.inj hs
    change _ = (⟨.latest g.cells.size, .next⟩ : Slot)
    rw [hgrown.size]
    rfl
  · intro l s hs
    apply h.deferred l s (List.mem_of_mem_filter hs)
  · intro l n hn
    rw [node?_moveTo, node?_landed] at hn
    split at hn
    case isTrue hl =>
      obtain rfl := Option.some.inj hn
      apply h.placed l hl
    case isFalse => apply h.bound l n hn
  · intro l hl
    contradiction

/-- A slot is led to a node to which it may lead. -/
theorem Traced.redirect
    (h : Traced parameters code a) (hs : s.exit ∈ a.graph.exits s.node)
    (horigin : Origin parameters code s n) :
  Traced parameters code { a with graph := a.graph.redirect s n }
  := by
  have hrewired := FlowGraph.rewired_redirect hs n
  constructor
  · intro s' m hm
    by_cases heq : s' = s
    · obtain rfl := Option.some.inj ((hrewired.led s' heq).symm.trans hm)
      rw [heq]
      apply horigin
    · apply h.slot s' m ((hrewired.kept s' heq).symm.trans hm)
  · intro s' hs'
    rw [h.falls s' hs']
    simp [hrewired.size]
  · apply h.deferred
  · apply h.bound
  · intro l hl
    have hplaced := h.placed l hl
    rw [next] at hplaced ⊢
    rwa [hrewired.size]

/-- A slot which is sent to a label waits for the label. -/
theorem Traced.defer
    (h : Traced parameters code a) (hs : Sends parameters code s l) :
  Traced parameters code { a with deferred := a.deferred ++ [(l, s)] }
  where
  slot := h.slot
  falls := h.falls
  deferred l' s' hs' := by
    rw [List.mem_append, List.mem_singleton, Prod.mk.injEq] at hs'
    obtain hs' | ⟨rfl, rfl⟩ := hs'
    · apply h.deferred l' s' hs'
    · apply hs
  bound := h.bound
  placed := h.placed

theorem Traced.refer
    (h : Traced parameters code (a.moveTo .nowhere)) (hs : Sends parameters code s l)
    (hrefer : a.refer l s = .ok a') :
  Traced parameters code (a'.moveTo .nowhere)
  := by
  obtain ⟨n, hn, hexit, rfl⟩ | rfl := refer_cases hrefer
  · apply Traced.redirect h hexit (Origin.sent hs (h.bound l n hn))
  · apply Traced.defer h hs

/-- An action more changes no slot. -/
theorem Traced.extend
    (h : Traced parameters code a) (b : Node) (x : Action) :
  Traced parameters code { a with graph := a.graph.extend b x }
  := by
  have hsize := a.graph.cells_size_extend b x
  constructor
  · intro s n hn
    rw [FlowGraph.target?_extend] at hn
    apply h.slot s n hn
  · intro s hs
    rw [h.falls s hs, hsize]
  · apply h.deferred
  · apply h.bound
  · intro l hl
    have hplaced := h.placed l hl
    rw [next] at hplaced ⊢
    rwa [hsize]

/-- In the block which is opened, every slot is traced. -/
theorem Traced.openBlock
    (hsound : a.Sound) (h : Traced parameters code a) (hopen : a.openBlock = .ok (b, a')) :
  Traced parameters code (a'.moveTo (.inside b)) ∧ b = .latest a'.graph.cells.size
  := by
  have htraced : Traced parameters code (a'.moveTo (.inside b)) := by
    obtain ⟨hcursor, rfl⟩ | ⟨g, -, hgrown, rfl, rfl⟩ := hsound.openBlock_cases hopen
    · rw [Assembly.moveTo, ← hcursor]
      apply h
    · apply hgrown.traced h
  use htraced
  exact (Slot.mk.inj (htraced.falls ⟨b, .next⟩ rfl)).1

/-! ### Code -/

theorem sends_concat
    (h : (initial parameters).emitAll code = .ok a) (hemit : a.emit i = .ok a')
    {p : Exit} (hl : i.label? p = some l) :
  Sends parameters (code ++ [i]) ⟨.latest a'.graph.cells.size, p⟩ l
  := by
  have hcode : (initial parameters).emitAll (code ++ [i]) = .ok a' := by
    rw [emitAll_concat, h]
    apply hemit
  use code, i, [], rfl, hl
  rw [made_eq hcode]

/-- A place is traced. -/
theorem Traced.emit_place
    (h : Traced parameters code a) (hcode : (initial parameters).emitAll code = .ok a)
    (hemit : a.emit (.place l) = .ok a') :
  Traced parameters (code ++ [.place l]) a'
  := by
  have h' := h.append [.place l]
  cases hemit
  constructor
  · apply h'.slot
  · apply h'.falls
  · apply h'.deferred
  · apply h'.bound
  · intro l' hl'
    obtain hl' | hl' := List.mem_append.mp hl'
    · apply h'.placed l' hl'
    · obtain rfl := List.mem_singleton.mp hl'
      use code, [], rfl
      rw [made_eq hcode]
      rfl

/-- An action is traced. -/
theorem Traced.emit_act
    (hsound : a.Sound) (h : Traced parameters code a) {x : Action}
    (hemit : a.emit (.act x) = .ok a') :
  Traced parameters code a'
  := by
  obtain ⟨b, a₁, hopen, ⟨-, rfl⟩ | ⟨-, hexit, rfl⟩⟩ := emit_act_cases hemit
  · apply (h.openBlock hsound hopen).1.extend b x
  · apply ((h.openBlock hsound hopen).1.extend b x).leave.redirect _ (Origin.stop rfl)
    change .next ∈ (a₁.graph.extend b x).exits b
    rwa [FlowGraph.exits, FlowGraph.kind_extend]

/-- A branch is traced. -/
theorem Traced.emit_branch
    (hsound : a.Sound) (h : Traced parameters code a)
    (hcode : (initial parameters).emitAll code = .ok a) {x : Expr} {ifTrue ifFalse : Label}
    (hemit : a.emit (.branch x ifTrue ifFalse) = .ok a') :
  Traced parameters (code ++ [.branch x ifTrue ifFalse]) a'
  := by
  have hsize : Node.latest a'.graph.cells.size = a.next := by
    rw [hsound.size_emit_branch hemit]
    rfl
  have hlabels : Sends parameters (code ++ [.branch x ifTrue ifFalse]) ⟨a.next, .ifTrue⟩ ifTrue
      ∧ Sends parameters (code ++ [.branch x ifTrue ifFalse]) ⟨a.next, .ifFalse⟩ ifFalse := by
    rw [← hsize]
    exact ⟨sends_concat hcode hemit rfl, sends_concat hcode hemit rfl⟩
  obtain ⟨g, a₁, a₂, hgrown, hreferTrue, hreferFalse, rfl⟩ := hsound.emit_branch_cases hemit
  apply Traced.refer _ hlabels.2 hreferFalse
  apply Traced.refer _ hlabels.1 hreferTrue
  apply (hgrown.traced (h.append _)).leave

/-- A jump is traced. -/
theorem Traced.emit_jump
    (hsound : a.Sound) (h : Traced parameters code a)
    (hcode : (initial parameters).emitAll code = .ok a) (hemit : a.emit (.jump l) = .ok a') :
  Traced parameters (code ++ [.jump l]) a'
  := by
  have hsends : Sends parameters (code ++ [.jump l]) ⟨.latest a'.graph.cells.size, .next⟩ l :=
    sends_concat hcode hemit rfl
  have h' := h.append [.jump l]
  obtain ⟨-, rfl⟩ | ⟨b, a₁, a₂, hopen, hrefer, rfl⟩ := emit_jump_cases hemit
  · apply h'
  · obtain ⟨hinside, rfl⟩ := h'.openBlock hsound hopen
    rw [graph_moveTo, size_refer hrefer] at hsends
    apply Traced.refer (a := a₁) hinside.leave hsends hrefer

theorem Traced.emit
    (hsound : a.Sound) (h : Traced parameters code a)
    (hcode : (initial parameters).emitAll code = .ok a) (hemit : a.emit i = .ok a') :
  Traced parameters (code ++ [i]) a'
  := by
  cases i with
  | place l => apply h.emit_place hcode hemit
  | act x => apply (h.emit_act hsound hemit).append
  | branch x ifTrue ifFalse => apply h.emit_branch hsound hcode hemit
  | jump l => apply h.emit_jump hsound hcode hemit

/-- Code of any length is traced. -/
theorem traced
    (h : (initial parameters).emitAll code = .ok a) :
  Traced parameters code a
  := by
  apply emitAll_induction (traced_initial parameters) _ h
  intro code i a a' hcode hsound htraced hemit
  apply htraced.emit hsound hcode hemit

/-- Every slot of a finished graph leads where it may. -/
theorem origin_of_complete
    (h : (initial parameters).emitAll code = .ok a) (hcomplete : a.complete = .ok g)
    (hs : (g.content s.node).target? s.exit = some n) :
  Origin parameters code s n
  := by
  have htraced := traced h
  have hsound := sound_of_emitAll h
  have hrewired := hsound.rewired_of_complete hcomplete
  by_cases henters : a.Enters s
  · apply Origin.stop
    apply Option.some.inj (hs.symm.trans (hrewired.led s henters))
  · apply htraced.slot s n ((hrewired.kept s henters).symm.trans hs)

end Assembly

end MethodFlow
