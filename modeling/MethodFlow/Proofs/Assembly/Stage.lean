import Mathlib.Data.List.Induction
import MethodFlow.Proofs.Assembly.Emission

/-!
# Stages of a construction

`Assembly.Finished` says which graph a construction gives when it is completed, and
`Assembly.Stage` collects what is known, in view of that graph, of the assembly between two parts of
the code.
-/

namespace MethodFlow

open LinearCode

namespace Assembly

variable {a a' aₙ : Assembly} {parameters : List Parameter} {g : FlowGraph}
  {before after after' : List Instruction} {i : Instruction} {l : Label}

/-! ### Closing a construction -/

/-- The graph `g` is that of `a` with what the cursor comes to and what is promised led to the
stop. -/
structure Finished (a : Assembly) (g : FlowGraph) : Prop where
  kind : ∀ m, g.kind m = a.graph.kind m
  observations : ∀ m, (g.content m).observations = (a.graph.content m).observations
  promises : ∀ s n, a.Promises [] s n → (g.content s.node).target? s.exit = some n
  falls : ∀ s, a.cursor.fallsFrom = some s → (g.content s.node).target? s.exit = some .stop

theorem result_eq_ok_iff :
  a.result = .ok g ↔ a.deferred = [] ∧ a.graph = g
  := by
  have hnone : a.unplaced? = none ↔ a.deferred = [] := by
    rw [unplaced?, List.min?_eq_none_iff, List.map_eq_nil_iff]
  rw [result, ← hnone]
  cases a.unplaced? <;> simp

/-- Completing a construction leads what enters the next node to the stop, and nothing else. -/
theorem Sound.rewired_of_complete
    (h : a.Sound) (hcomplete : a.complete = .ok g) :
  a.graph.Rewired a.Enters .stop g
  := by
  rw [Assembly.complete, close] at hcomplete
  cases hreachable : a.cursor.isReachable with
  | true =>
      obtain ⟨g', hland, hrewired⟩ := land_eq
        (fun s hs => h.has s (mem_openSlots.mpr (Or.inl hs)))
        (fun w hw => h.has w.2 (mem_openSlots.mpr (Or.inr ⟨w.1, hw⟩))) .stop
      rw [if_pos hreachable, hland] at hcomplete
      obtain ⟨-, rfl⟩ := result_eq_ok_iff.mp hcomplete
      apply hrewired
  | false =>
      rw [if_neg (by simp [hreachable])] at hcomplete
      obtain ⟨-, rfl⟩ := result_eq_ok_iff.mp hcomplete
      apply (FlowGraph.Rewired.refl a.graph .stop).congr
      intro s
      simp [Enters, eq_nowhere_of_not_reachable hreachable, Cursor.nowhere]

/-- Where the cursor enters the stop, a graph is finished if slots wait only for the labels at the
cursor. -/
theorem Sound.finished_landed
    (h : a.Sound) (hdeferred : ∀ l s, (l, s) ∈ a.deferred → l ∈ a.cursor.placed)
    (hrewired : a.graph.Rewired (fun s => a.cursor.fallsFrom = some s
      ∨ ∃ l ∈ a.cursor.placed, (l, s) ∈ a.deferred) .stop g) :
  a.Finished g
  := by
  constructor
  · apply hrewired.kind
  · apply hrewired.observations
  · rintro s n (hs | ⟨hcursor, rfl⟩ | ⟨hs, hn⟩)
    · rw [hrewired.kept]
      · apply hs
      · intro henters
        rw [h.unset s (Enters.mem_openSlots henters)] at hs
        contradiction
    · apply hrewired.led s
      left
      rw [hcursor]
      rfl
    · have hl := hdeferred _ s hs
      rw [home, if_pos hl] at hn
      rw [← Option.some.inj hn]
      apply hrewired.led s
      right
      exact ⟨_, hl, hs⟩
  · intro s hs
    apply hrewired.led s (Or.inl hs)

/-- Where the cursor is nowhere and no slot waits, the graph is finished. -/
theorem finished_of_nowhere
    (hcursor : a.cursor = .nowhere) (hnil : a.deferred = []) :
  a.Finished a.graph
  := by
  constructor
  · intro m
    rfl
  · intro m
    rfl
  · rintro s n (hs | ⟨hs, -⟩ | ⟨hs, -⟩)
    · apply hs
    · simp [hcursor, Cursor.nowhere] at hs
    · rw [hnil] at hs
      contradiction
  · intro s hs
    rw [hcursor] at hs
    contradiction

/-- A construction is completed if slots wait only for the labels at the cursor. -/
theorem Sound.complete
    (h : a.Sound) (hdeferred : ∀ l s, (l, s) ∈ a.deferred → l ∈ a.cursor.placed) :
  ∃ g, a.complete = .ok g ∧ a.Finished g
  := by
  cases hreachable : a.cursor.isReachable with
  | true =>
      obtain ⟨g, hland, hrewired⟩ := land_eq
        (fun s hs => h.has s (mem_openSlots.mpr (Or.inl hs)))
        (fun w hw => h.has w.2 (mem_openSlots.mpr (Or.inr ⟨w.1, hw⟩))) .stop
      have hnil : (a.landed .stop g).deferred = [] := by
        apply List.filter_eq_nil_iff.mpr
        intro w hw
        simpa using hdeferred w.1 w.2 hw
      use g
      constructor
      · rw [Assembly.complete, close, if_pos hreachable, hland]
        exact result_eq_ok_iff.mpr ⟨hnil, rfl⟩
      · apply h.finished_landed hdeferred hrewired
  | false =>
      have hcursor := eq_nowhere_of_not_reachable hreachable
      have hnil : a.deferred = [] := by
        apply List.eq_nil_iff_forall_not_mem.mpr
        intro w hw
        have hl := hdeferred w.1 w.2 hw
        rw [hcursor] at hl
        contradiction
      use a.graph
      constructor
      · rw [Assembly.complete, close, if_neg (by simp [hreachable])]
        exact result_eq_ok_iff.mpr ⟨hnil, rfl⟩
      · apply finished_of_nowhere hcursor hnil

/-! ### Stages of a construction -/

/-- The assembly `a` is the one between the code `before` and the code `after` on the way to the
graph `g`. -/
structure Stage (parameters : List Parameter) (before after : List Instruction) (g : FlowGraph)
    (a : Assembly) : Prop where
  emitted : (initial parameters).emitAll before = .ok a
  sound : a.Sound
  evolves : (initial parameters).Evolves before (targets before) a
  closed : ∀ m ∈ a.graph.nodes, a.cursor ≠ .inside m →
    g.kind m = a.graph.kind m ∧ (g.content m).observations = (a.graph.content m).observations
  promises : ∀ s n, a.Promises after s n → (g.content s.node).target? s.exit = some n

/-- The invariant holds at the beginning. -/
theorem sound_initial
    (parameters : List Parameter) :
  (initial parameters).Sound
  where
  has s hs := by
    obtain rfl := List.mem_singleton.mp hs
    apply List.mem_singleton_self _
  unset s hs := by
    obtain rfl := List.mem_singleton.mp hs
    rfl
  nodup := List.nodup_singleton _
  unbound l s hs := by contradiction
  block b hb := by contradiction

theorem Sound.of_emit
    (h : a.Sound) (hemit : a.emit i = .ok a') :
  a'.Sound
  := by
  obtain ⟨a'', hemit', hsound, -⟩ := h.emit i
  rwa [← Except.ok.inj (hemit'.symm.trans hemit)]

theorem Sound.of_emitAll
    {code : List Instruction} (h : a.Sound) (hcode : a.emitAll code = .ok a') :
  a'.Sound
  := by
  obtain ⟨a'', hcode', hsound, -⟩ := h.emitAll code
  rwa [← Except.ok.inj (hcode'.symm.trans hcode)]

/-- The invariant holds whatever code was emitted. -/
theorem sound_of_emitAll
    {code : List Instruction} (h : (initial parameters).emitAll code = .ok a) :
  a.Sound
  := (sound_initial parameters).of_emitAll h

/-- What holds at the beginning and is kept by every instruction holds whatever code was emitted. -/
theorem emitAll_induction
    {P : List Instruction → Assembly → Prop} (first : P [] (initial parameters))
    (step : ∀ {code i a a'}, (initial parameters).emitAll code = .ok a → a.Sound → P code a →
      a.emit i = .ok a' → P (code ++ [i]) a')
    {code : List Instruction} (h : (initial parameters).emitAll code = .ok a) :
  P code a
  := by
  induction code using List.reverseRecOn generalizing a with
  | nil =>
      cases h
      apply first
  | append_singleton code i ih =>
      obtain ⟨a₁, ha₁, hsound, -⟩ := (sound_initial parameters).emitAll code
      rw [emitAll_concat, ha₁] at h
      apply step ha₁ hsound (ih ha₁) h

/-- There is a stage between any two parts of the code. -/
theorem exists_stage
    (hcode : (initial parameters).emitAll (before ++ after) = .ok aₙ) (hg : aₙ.Finished g) :
  ∃ a, Stage parameters before after g a
  := by
  obtain ⟨a, ha, hsound, hevolves⟩ := (sound_initial parameters).emitAll before
  obtain ⟨a', ha', -, hevolves'⟩ := hsound.emitAll after
  have hemit : (initial parameters).emitAll (before ++ after) = .ok a' := by
    rw [emitAll_append, ha]
    apply ha'
  obtain rfl := Except.ok.inj (hcode.symm.trans hemit)
  use a, ha, hsound, hevolves
  · intro m hm hcursor
    obtain ⟨-, hkind, hobservations⟩ := hevolves'.closed m hm hcursor
    exact ⟨(hg.kind m).trans hkind, (hg.observations m).trans hobservations⟩
  · intro s n hs
    apply hg.promises s n
    apply hevolves'.promises [] s n
    rwa [List.append_nil]

/-- Emitting an instruction leads to the next stage. -/
theorem Stage.emit
    (hcode : (initial parameters).emitAll (before ++ i :: after) = .ok aₙ) (hg : aₙ.Finished g)
    (h : Stage parameters before (i :: after) g a) (hemit : a.emit i = .ok a') :
  Stage parameters (before ++ [i]) after g a'
  := by
  rw [List.append_cons] at hcode
  obtain ⟨a'', ha''⟩ := exists_stage hcode hg
  have hemitted := ha''.emitted
  rw [emitAll_concat, h.emitted] at hemitted
  obtain rfl := Except.ok.inj (hemit.symm.trans hemitted)
  apply ha''

/-- Behind a place the cursor is at a new node, to which the label leads. -/
theorem Stage.cursor_of_place
    (h : Stage parameters (before ++ [.place l]) after g a) :
  ∃ fallsFrom labels, a.cursor = .between fallsFrom (labels ++ [l])
  := by
  obtain ⟨a', ha', -⟩ := (sound_initial parameters).emitAll before
  have hemitted := h.emitted
  rw [emitAll_concat, ha'] at hemitted
  obtain rfl := Except.ok.inj hemitted
  exact ⟨_, _, rfl⟩

/-- Where a jump goes on, the code stands at a node to which the label then leads. -/
theorem Stage.standing_of_place
    (h : Stage parameters (before ++ [.place l]) after g a) :
  a.cursor.isReachable = true ∧ a.standing after = (landing after a.graph.cells.size, [])
    ∧ a.home after l = some (landing after a.graph.cells.size)
  := by
  obtain ⟨fallsFrom, labels, hcursor⟩ := h.cursor_of_place
  constructor
  · simp [hcursor, Cursor.isReachable]
  · constructor
    · rw [standing, hcursor]
    · rw [home, if_pos (by simp [hcursor])]

/-- What becomes of an assembly from one stage to a later one. -/
theorem Stage.evolves_between
    {between : List Instruction} (h : Stage parameters before after g a)
    (h' : Stage parameters (before ++ between) after' g a') :
  a.Evolves between (targets between) a'
  := by
  obtain ⟨a'', ha'', -, hevolves⟩ := h.sound.emitAll between
  have hemitted := h'.emitted
  rw [emitAll_append, h.emitted] at hemitted
  obtain rfl := Except.ok.inj (ha''.symm.trans hemitted)
  apply hevolves

theorem Stage.home_eq_none
    (h : Stage parameters before after g a) (hl : l ∉ placed before) (rest : List Instruction) :
  a.home rest l = none
  := by
  rw [h.evolves.home rest l hl]
  rfl

end Assembly

end MethodFlow
