import Mathlib.Data.List.Induction
import MethodFlow.Proofs.Assembly.Accounting
import MethodFlow.Proofs.Assembly.Stage

/-!
# When a construction can be completed

A label is missing if code names it, by a branch or by a jump which is not dropped, and places it
nowhere (`LinearCode.Misses`).  The labels for which slots wait when a construction is closed are
the missing ones (`Assembly.exists_closed`), so a construction is completed exactly when no label is
missing, and gives a graph in which every slot is set (`Assembly.completes_unless_missing`).
-/

namespace MethodFlow

/-- Whether what stands behind an instruction may be reached from it without a jump. -/
def Instruction.fallsThrough : Instruction → Bool
  | .place _ => true
  | .act x => !x.endsMethod
  | .branch _ _ _ | .jump _ => false

namespace LinearCode

variable {code before after : List Instruction} {l : Label}

/-- What stands behind `before` may be reached: from the beginning of the code, from the instruction
in front of it, or by a jump to a label placed there. -/
def Enterable (before : List Instruction) : Prop :=
  ∀ i ∈ before.getLast?, i.fallsThrough = true

/-- The label is named by a branch, or by a jump which may be reached.  Other jumps are dropped. -/
inductive Names (code : List Instruction) (l : Label) : Prop where
  | branch {before after : List Instruction} {c : Expr} {ifTrue ifFalse : Label}
      (h : before ++ .branch c ifTrue ifFalse :: after = code) (hl : l = ifTrue ∨ l = ifFalse)
  | jump {before after : List Instruction} (h : before ++ .jump l :: after = code)
      (hbefore : Enterable before)

/-- The label is named in the code and placed nowhere. -/
def Misses (code : List Instruction) (l : Label) : Prop :=
  Names code l ∧ l ∉ placed code

/-- What is named in a part of the code is named in the code. -/
theorem Names.append
    (h : Names code l) (rest : List Instruction) :
  Names (code ++ rest) l
  := by
  cases h with
  | branch h hl =>
      rw [← h, List.append_assoc, List.cons_append]
      apply Names.branch rfl hl
  | jump h hbefore =>
      rw [← h, List.append_assoc, List.cons_append]
      apply Names.jump rfl hbefore

end LinearCode

open LinearCode

namespace Assembly

variable {a a' a'' : Assembly} {parameters : List Parameter} {g : FlowGraph}
  {code before after : List Instruction} {i : Instruction} {l : Label} {s : Slot}

/-! ### What is reached -/

/-- Behind an instruction the next one is reached if the instruction falls through. -/
theorem Sound.isReachable_emit
    (h : a.Sound) (hemit : a.emit i = .ok a') :
  a'.cursor.isReachable = i.fallsThrough
  := by
  cases i with
  | place l =>
      cases hemit
      simp [Cursor.isReachable, Instruction.fallsThrough]
  | act x =>
      obtain ⟨a₁, b, done, hemit₁, hacted⟩ := h.emit_act x
      obtain rfl := Except.ok.inj (hemit₁.symm.trans hemit)
      cases hx : x.endsMethod with
      | false =>
          rw [hacted.inside hx, Instruction.fallsThrough, hx]
          rfl
      | true =>
          rw [hacted.nowhere hx, Instruction.fallsThrough, hx]
          rfl
  | branch c ifTrue ifFalse =>
      obtain ⟨a₁, hemit₁, hbranched⟩ := h.emit_branch c ifTrue ifFalse
      obtain rfl := Except.ok.inj (hemit₁.symm.trans hemit)
      rw [hbranched.cursor]
      rfl
  | jump l =>
      cases hreachable : a.cursor.isReachable with
      | true =>
          obtain ⟨a₁, b, done, hemit₁, hjumped⟩ := h.emit_jump hreachable l
          obtain rfl := Except.ok.inj (hemit₁.symm.trans hemit)
          rw [hjumped.cursor]
          rfl
      | false =>
          obtain ⟨hself, -⟩ := emit_jump_of_not_reachable hreachable l
          obtain rfl := Except.ok.inj (hself.symm.trans hemit)
          apply hreachable

/-- The cursor is reached exactly where an instruction may be reached. -/
theorem isReachable_iff
    (h : (initial parameters).emitAll before = .ok a) :
  a.cursor.isReachable = true ↔ Enterable before
  := by
  induction before using List.reverseRecOn with
  | nil =>
      cases h
      simp [Enterable, initial, Cursor.isReachable]
  | append_singleton before i _ =>
      obtain ⟨a₁, ha₁, hsound, -⟩ := (sound_initial parameters).emitAll before
      rw [emitAll_concat, ha₁] at h
      rw [hsound.isReachable_emit h]
      simp [Enterable]

/-! ### What is waited for -/

/-- A slot which waits for a label after an instruction waited for it before, or the instruction
names the label. -/
theorem Sound.deferred_emit
    (h : a.Sound) (hemit : a.emit i = .ok a') (hs : (l, s) ∈ a'.deferred) :
  (l, s) ∈ a.deferred ∨ (∃ c ifTrue ifFalse, i = .branch c ifTrue ifFalse ∧ l ∈ [ifTrue, ifFalse])
    ∨ (i = .jump l ∧ a.cursor.isReachable = true)
  := by
  cases i with
  | place l =>
      cases hemit
      left
      apply hs
  | act x =>
      obtain ⟨a₁, b, done, hemit₁, hacted⟩ := h.emit_act x
      obtain rfl := Except.ok.inj (hemit₁.symm.trans hemit)
      left
      apply (hacted.evolves.deferred l s hs).resolve_right List.not_mem_nil
  | branch c ifTrue ifFalse =>
      obtain ⟨a₁, hemit₁, hbranched⟩ := h.emit_branch c ifTrue ifFalse
      obtain rfl := Except.ok.inj (hemit₁.symm.trans hemit)
      apply (hbranched.evolves.deferred l s hs).imp_right
      intro hl
      left
      exact ⟨c, ifTrue, ifFalse, rfl, hl⟩
  | jump l' =>
      cases hreachable : a.cursor.isReachable with
      | true =>
          obtain ⟨a₁, b, done, hemit₁, hjumped⟩ := h.emit_jump hreachable l'
          obtain rfl := Except.ok.inj (hemit₁.symm.trans hemit)
          apply (hjumped.evolves.deferred l s hs).imp_right
          intro hl
          obtain rfl := List.mem_singleton.mp hl
          right
          exact ⟨rfl, rfl⟩
      | false =>
          obtain ⟨hself, -⟩ := emit_jump_of_not_reachable hreachable l'
          obtain rfl := Except.ok.inj (hself.symm.trans hemit)
          left
          apply hs

/-- Slots wait only for labels which are named. -/
theorem names_of_mem_deferred
    (h : (initial parameters).emitAll code = .ok a) (hs : (l, s) ∈ a.deferred) :
  Names code l
  := by
  revert l s
  apply emitAll_induction (P := fun code a => ∀ l s, (l, s) ∈ a.deferred → Names code l) ?first
    ?step h
  case first =>
    intro l s hs
    contradiction
  case step =>
    intro code i a a' hcode hsound hnames hemit l s hs
    obtain hs | ⟨c, ifTrue, ifFalse, rfl, hl⟩ | ⟨rfl, hreachable⟩ := hsound.deferred_emit hemit hs
    · apply (hnames l s hs).append
    · apply Names.branch rfl (by simpa using hl)
    · apply Names.jump rfl ((isReachable_iff hcode).mp hreachable)

/-- A slot which is referred to a label waits until the label is placed. -/
theorem Refers.mem_deferred
    {labels labels' labels'' : List Label} (hrefers : a.Refers i l s a')
    (hbefore : (initial parameters).Evolves before labels a) (h : a.Evolves [i] labels' a')
    (hafter : a'.Evolves after labels'' a'') (hl : l ∉ placed (before ++ i :: after)) :
  (l, s) ∈ a''.deferred
  := by
  rw [List.append_cons, placed_append, List.mem_append, not_or] at hl
  have hbefore' : l ∉ placed before := by
    intro hmem
    apply hl.1
    rw [placed_append]
    apply List.mem_append_left _ hmem
  apply hafter.awaits l s _ hl.2
  · rw [(hbefore.trans h).home [] l hl.1]
    rfl
  · apply hrefers.awaits
    rw [hbefore.home [] l hbefore']
    rfl

theorem emitAll_append_cons
    (h : (initial parameters).emitAll before = .ok a) (hemit : a.emit i = .ok a')
    (after : List Instruction) :
  (initial parameters).emitAll (before ++ i :: after) = a'.emitAll after
  := by
  rw [List.append_cons, emitAll_append, emitAll_concat, h]
  change (a.emit i >>= fun a => a.emitAll after) = _
  rw [hemit]
  rfl

/-- For each missing label some slot waits. -/
theorem exists_mem_deferred
    (h : (initial parameters).emitAll code = .ok a) (hl : Misses code l) :
  ∃ s, (l, s) ∈ a.deferred
  := by
  obtain ⟨hnames, hplaced⟩ := hl
  cases hnames with
  | @branch before after c ifTrue ifFalse hcode hl =>
      subst hcode
      obtain ⟨a₁, ha₁, hsound₁, hevolves₁⟩ := (sound_initial parameters).emitAll before
      obtain ⟨a₂, ha₂, hbranched⟩ := hsound₁.emit_branch c ifTrue ifFalse
      obtain ⟨a₃, ha₃, -, hevolves₃⟩ := hbranched.sound.emitAll after
      rw [emitAll_append_cons ha₁ ha₂, ha₃] at h
      obtain rfl := Except.ok.inj h
      obtain rfl | rfl := hl
      · use ⟨a₁.next, .ifTrue⟩
        apply hbranched.refersTrue.mem_deferred hevolves₁ hbranched.evolves hevolves₃ hplaced
      · use ⟨a₁.next, .ifFalse⟩
        apply hbranched.refersFalse.mem_deferred hevolves₁ hbranched.evolves hevolves₃ hplaced
  | @jump before after hcode hbefore =>
      subst hcode
      obtain ⟨a₁, ha₁, hsound₁, hevolves₁⟩ := (sound_initial parameters).emitAll before
      obtain ⟨a₂, b, done, ha₂, hjumped⟩ := hsound₁.emit_jump ((isReachable_iff ha₁).mpr hbefore) l
      obtain ⟨a₃, ha₃, -, hevolves₃⟩ := hjumped.sound.emitAll after
      rw [emitAll_append_cons ha₁ ha₂, ha₃] at h
      obtain rfl := Except.ok.inj h
      use ⟨b, .next⟩
      apply hjumped.refers.mem_deferred hevolves₁ hjumped.evolves hevolves₃ hplaced

/-- No label for which a slot waits away from the cursor is placed. -/
theorem not_mem_placed
    (hevolves : (initial parameters).Evolves code (targets code) a) (hsound : a.Sound)
    (hs : (l, s) ∈ a.deferred) (hcursor : l ∉ a.cursor.placed) :
  l ∉ placed code
  := by
  intro hplaced
  apply hevolves.housed [] l hplaced
  apply home_eq_none_iff.mpr ⟨hcursor, hsound.unbound l s hs⟩

/-! ### Closing -/

/-- When a construction is closed, what waits for a label at the cursor is led to the stop, and
nothing else is dealt with. -/
theorem Sound.exists_close
    (h : a.Sound) (haccounted : a.Accounted []) :
  ∃ closed, a.close = .ok closed ∧ closed.cursor = .nowhere ∧ closed.Accounted []
    ∧ closed.deferred = a.deferred.filter (·.1 ∉ a.cursor.placed)
  := by
  cases hreachable : a.cursor.isReachable with
  | true =>
      obtain ⟨g, hland, hrewired⟩ := land_eq
        (fun s hs => h.has s (mem_openSlots.mpr (Or.inl hs)))
        (fun w hw => h.has w.2 (mem_openSlots.mpr (Or.inr ⟨w.1, hw⟩))) .stop
      use (a.landed .stop g).moveTo .nowhere
      refine ⟨?_, rfl, ?_, rfl⟩
      · rw [Assembly.close, if_pos hreachable, hland]
        rfl
      · apply haccounted.landed (Nat.le_of_eq hrewired.size.symm) (isTarget_stop g)
        · exact fun m _ => hrewired.kind m
        · exact fun s hs => hrewired.led s hs
        · exact fun s _ hs => hrewired.kept s hs
        · intro s hold hs
          rw [FlowGraph.exits, hrewired.kind] at hs
          exact absurd (FlowGraph.mem_nodes_of_mem_exits hs) hold
  | false =>
      have hcursor := eq_nowhere_of_not_reachable hreachable
      use a.moveTo .nowhere
      refine ⟨?_, rfl, ?_, ?_⟩
      · rw [Assembly.close, if_neg (by simp [hreachable])]
        rfl
      · apply haccounted.moveTo
        rw [← hcursor]
        exact fun s hs => hs
      · rw [hcursor]
        simp [Cursor.nowhere]

/-- When a construction is closed, slots wait exactly for the missing labels. -/
theorem exists_closed
    (h : (initial parameters).emitAll code = .ok a) :
  ∃ closed, a.close = .ok closed ∧ closed.cursor = .nowhere ∧ closed.Accounted []
    ∧ ∀ l, (∃ s, (l, s) ∈ closed.deferred) ↔ Misses code l
  := by
  obtain ⟨a', ha', hsound, hevolves⟩ := (sound_initial parameters).emitAll code
  obtain rfl := Except.ok.inj (ha'.symm.trans h)
  have haccounted := (accounted_initial parameters).emitAll (sound_initial parameters) h
  obtain ⟨closed, hclosed, hcursor, haccounted', hdeferred⟩ := hsound.exists_close haccounted
  use closed, hclosed, hcursor, haccounted'
  intro l
  rw [hdeferred]
  constructor
  · rintro ⟨s, hs⟩
    obtain ⟨hs, hl⟩ := List.mem_filter.mp hs
    constructor
    · apply names_of_mem_deferred h hs
    · apply not_mem_placed hevolves hsound hs (of_decide_eq_true hl)
  · intro hl
    obtain ⟨s, hs⟩ := exists_mem_deferred h hl
    have hhome : a'.home [] l = none := by
      rw [hevolves.home [] l hl.2]
      rfl
    use s
    apply List.mem_filter.mpr ⟨hs, decide_eq_true (home_eq_none_iff.mp hhome).1⟩

/-- A construction in which slots wait is refused, for the least label for which one waits. -/
theorem result_eq_error
    (h : ∃ l s, (l, s) ∈ a.deferred) :
  ∃ l, (∃ s, (l, s) ∈ a.deferred) ∧ (∀ l' s, (l', s) ∈ a.deferred → l.number ≤ l'.number)
    ∧ a.result = .error (.unplacedLabel l.number)
  := by
  obtain ⟨l, s, hs⟩ := h
  have hne : a.deferred.map (·.1.number) ≠ [] := by
    apply List.ne_nil_of_mem (List.mem_map_of_mem hs)
  cases hmin : a.unplaced? with
  | none => exact absurd (List.min?_eq_none_iff.mp hmin) hne
  | some number =>
      obtain ⟨hmem, hle⟩ := List.min?_eq_some_iff.mp hmin
      obtain ⟨⟨l, s⟩, hs, rfl⟩ := List.mem_map.mp hmem
      use l, ⟨s, hs⟩
      constructor
      · intro l' s' hs'
        apply hle
        apply List.mem_map_of_mem hs'
      · rw [result, hmin]

/-- Once a construction is closed and no slot waits, every slot of its graph is set. -/
theorem Accounted.exists_target
    (h : a.Accounted []) (hcursor : a.cursor = .nowhere) (hnil : a.deferred = [])
    (hs : s.exit ∈ a.graph.exits s.node) :
  ∃ m, a.graph.target s = .ok m ∧ m ∈ a.graph.nodes ∧ m ≠ .start
  := by
  obtain ⟨m, hm⟩ | hopen | ⟨⟨⟩⟩ := h.slot s hs
  · use m, FlowGraph.target_eq_ok_iff.mpr hm
    apply h.target s m hm
  · rw [openSlots, hcursor, hnil] at hopen
    contradiction

/-- Every slot of the graph of a construction which is completed leads to a node of the graph other
than the start. -/
theorem exists_target_of_complete
    (h : (initial parameters).emitAll code = .ok a) (hcomplete : a.complete = .ok g)
    (hs : s.exit ∈ g.exits s.node) :
  ∃ m, g.target s = .ok m ∧ m ∈ g.nodes ∧ m ≠ .start
  := by
  obtain ⟨closed, hclosed, hcursor, haccounted, -⟩ := exists_closed h
  rw [Assembly.complete, hclosed] at hcomplete
  obtain ⟨hnil, rfl⟩ := result_eq_ok_iff.mp hcomplete
  apply haccounted.exists_target hcursor hnil hs

theorem wired_of_complete
    (h : (initial parameters).emitAll code = .ok a) (hcomplete : a.complete = .ok g) :
  g.Wired
  := by
  intro n _ p hp
  obtain ⟨m, hm, -⟩ := exists_target_of_complete (s := ⟨n, p⟩) h hcomplete hp
  exact ⟨m, FlowGraph.target_eq_ok_iff.mp hm⟩

/-- Whatever the code is, every instruction of it is emitted without failure.  The construction is
refused, with the least missing label, if a label is missing.  Otherwise it is completed, and every
slot of every node of its graph, reached or not, leads to a node of the graph which is not the
start. -/
theorem completes_unless_missing
    (parameters : List Parameter) (code : List Instruction) :
  (∀ before i after, before ++ i :: after = code →
      ∃ a a', (initial parameters).emitAll before = .ok a ∧ a.emit i = .ok a')
    ∧ ∃ a, (initial parameters).emitAll code = .ok a
      ∧ ((∃ l, Misses code l) →
        ∃ l, Misses code l ∧ (∀ l', Misses code l' → l.number ≤ l'.number)
          ∧ a.complete = .error (.unplacedLabel l.number))
      ∧ ((¬ ∃ l, Misses code l) →
        ∃ g, a.complete = .ok g ∧ ∀ n ∈ g.nodes, ∀ p ∈ g.exits n,
          ∃ m, g.target ⟨n, p⟩ = .ok m ∧ m ∈ g.nodes ∧ m ≠ .start)
  := by
  constructor
  · intro before i after _
    obtain ⟨a, ha, hsound, -⟩ := (sound_initial parameters).emitAll before
    obtain ⟨a', ha', -⟩ := hsound.emit i
    exact ⟨a, a', ha, ha'⟩
  · obtain ⟨a, ha, -⟩ := (sound_initial parameters).emitAll code
    obtain ⟨closed, hclosed, hcursor, haccounted, hwaits⟩ := exists_closed ha
    have hcomplete : a.complete = closed.result := by
      rw [Assembly.complete, hclosed]
      rfl
    use a, ha
    rw [hcomplete]
    constructor
    · rintro ⟨l, hl⟩
      obtain ⟨s, hs⟩ := (hwaits l).mpr hl
      obtain ⟨least, hleast, hle, hresult⟩ := result_eq_error ⟨l, s, hs⟩
      use least, (hwaits least).mp hleast
      constructor
      · intro l' hl'
        obtain ⟨s', hs'⟩ := (hwaits l').mpr hl'
        apply hle l' s' hs'
      · apply hresult
    · intro hnone
      have hnil : closed.deferred = [] := by
        apply List.eq_nil_iff_forall_not_mem.mpr
        rintro ⟨l, s⟩ hs
        apply hnone ⟨l, (hwaits l).mp ⟨s, hs⟩⟩
      use closed.graph, result_eq_ok_iff.mpr ⟨hnil, rfl⟩
      intro n _ p hp
      apply haccounted.exists_target hcursor hnil hp

end Assembly

end MethodFlow
