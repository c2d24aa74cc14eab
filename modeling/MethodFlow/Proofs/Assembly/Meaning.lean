import MethodFlow.Proofs.Assembly.Stage
import MethodFlow.Proofs.Graph.Execution

/-!
# The meaning of assembled code

`Assembly.Stands` says at which node of the finished graph the code before some place stands.  What
each instruction does there is said once (`Stands.place`, `Stands.act`, `Stands.ret`,
`Stands.branch_cases`, `Stands.jump`).  By `Assembly.Stands.continues` the graph goes on, from where
the code stands, as the code runs from there.
-/

namespace MethodFlow

open LinearCode

namespace Assembly

variable {a a' aₙ : Assembly} {parameters : List Parameter} {g : FlowGraph} {n : Node} {s : Slot}
  {before after before' after' code : List Instruction} {i : Instruction} {l t f : Label}
  {x : Action} {c : Expr} {os : List Bool} {es done : List Observation} {e : Ending}

/-! ### Where the code stands -/

/-- The code at the position stands at the node `n`, and `done` is what has been done there. -/
inductive Stands (parameters : List Parameter) (g : FlowGraph) :
    List Instruction → List Instruction → Node → List Observation → Prop where
  | here {before after : List Instruction} {a : Assembly} {n : Node} {done : List Observation}
      (h : Stage parameters before after g a) (hreachable : a.cursor.isReachable = true)
      (hstanding : a.standing after = (n, done)) : Stands parameters g before after n done
  /-- A branch stands at a node of its own, also if the code before it stands in a block. -/
  | branch {before after : List Instruction} {a : Assembly} {c : Expr} {t f : Label}
      (h : Stage parameters before (.branch c t f :: after) g a)
      (hreachable : a.cursor.isReachable = true) :
      Stands parameters g before (.branch c t f :: after) a.next []
  /-- At the end of the code the method may have come to its end. -/
  | stop {before : List Instruction} : Stands parameters g before [] .stop []

/-- A slot which was referred to a label leads to where a jump to the label goes on.  If the label
was not placed before, the node there was made later. -/
theorem Stage.stands_of_finds
    (hcode : (initial parameters).emitAll (before ++ i :: after) = .ok aₙ) (hg : aₙ.Finished g)
    (h : Stage parameters before (i :: after) g a) (hemit : a.emit i = .ok a')
    (hi : i.placed = []) (hrefers : a.Refers i l s a') (hmem : n ∈ a'.graph.nodes)
    (hfinds : Finds l before (i :: after) before' after') :
  ∃ m, Stands parameters g before' after' m [] ∧ (g.content s.node).target? s.exit = some m
    ∧ (l ∉ placed before → n.Precedes m)
  := by
  have h' := h.emit hcode hg hemit
  have happend := hfinds.append_eq
  generalize hrest : i :: after = rest at hfinds
  cases hfinds with
  | @back before between _ hbetween =>
      subst hrest
      rw [← happend] at hcode
      obtain ⟨a'', ha''⟩ := exists_stage hcode hg
      obtain ⟨hreachable, hstanding, hhome⟩ := ha''.standing_of_place
      refine ⟨_, Stands.here ha'' hreachable hstanding, ?_, ?_⟩
      · rw [List.append_cons] at h
        apply h'.promises s
        apply hrefers.promises after
        rw [(ha''.evolves_between h).home _ l hbetween]
        apply hhome
      · intro hl
        exact absurd (by simp [Instruction.placed]) hl
  | @ahead _ between _ hbefore hbetween =>
      cases between with
      | nil =>
          obtain ⟨rfl, -⟩ := List.cons.inj hrest
          contradiction
      | cons i' between =>
          obtain ⟨rfl, hafter⟩ := List.cons.inj hrest
          change after = between ++ .place l :: after' at hafter
          subst hafter
          have hcode' : (initial parameters).emitAll
              (before ++ [i] ++ between ++ .place l :: after') = .ok aₙ := by
            simpa using hcode
          -- The slot waits until the label is placed.
          obtain ⟨a₂, h₂⟩ := exists_stage hcode' hg
          have hdeferred : (l, s) ∈ a₂.deferred := by
            rw [placed_cons, List.mem_append, not_or] at hbetween
            apply (h'.evolves_between h₂).awaits l s _ hbetween.2
            · apply h'.home_eq_none
              simp [hbefore, hi]
            · apply hrefers.awaits
              apply h.home_eq_none hbefore
          have h₃ := h₂.emit hcode' hg (a₂.emit_place l)
          obtain ⟨hreachable, hstanding, hhome⟩ := h₃.standing_of_place
          refine ⟨_, Stands.here (by simpa using h₃) hreachable hstanding, ?_, ?_⟩
          · apply h₃.promises s
            exact Promises.waits hdeferred hhome
          · intro _
            apply precedes_landing hmem (h'.evolves_between h₂).size

/-! ### What the graph does where the code stands -/

/-- Where the cursor leaves the node at which the code stands, the node leads to the next one. -/
theorem Stage.next_of_standing
    (h : Stage parameters before (i :: after) g a)
    (h' : Stage parameters (before ++ [i]) after g a') (hcursor : ∀ b, a'.cursor ≠ .inside b)
    (hobservations : ∀ m ∈ a.graph.nodes,
      (a'.graph.content m).observations = (a.graph.content m).observations)
    (hpromises : ∀ s, a.cursor.fallsFrom = some s →
      a'.Promises after s (landing (i :: after) a.graph.cells.size))
    (hstanding : a.standing (i :: after) = (n, done)) :
  (landing (i :: after) a.graph.cells.size = n ∧ done = [])
    ∨ ((g.content n).observations = done
      ∧ (g.content n).target? .next = some (landing (i :: after) a.graph.cells.size)
      ∧ n.Precedes (landing (i :: after) a.graph.cells.size))
  := by
  cases ha : a.cursor with
  | between fallsFrom labels =>
      left
      rw [standing, ha] at hstanding
      obtain ⟨rfl, rfl⟩ := Prod.mk.inj hstanding
      exact ⟨rfl, rfl⟩
  | inside b =>
      right
      rw [standing, ha] at hstanding
      obtain ⟨rfl, rfl⟩ := Prod.mk.inj hstanding
      have hmem : b ∈ a.graph.nodes := by
        apply FlowGraph.mem_nodes_of_mem_exits (p := .next)
        rw [FlowGraph.exits, h.sound.block b ha]
        exact List.mem_singleton_self _
      have hmem' := FlowGraph.mem_nodes_of_size_le (h.evolves_between h').size hmem
      constructor
      · rw [(h'.closed b hmem' (hcursor b)).2, hobservations b hmem]
      · constructor
        · apply h'.promises ⟨b, .next⟩
          apply hpromises
          rw [ha]
          rfl
        · apply precedes_landing hmem (Nat.le_refl _)

/-- At the end of the code the graph is at its stop, or comes to it next. -/
theorem Stands.end
    (hcode : (initial parameters).emitAll before = .ok aₙ) (hg : aₙ.Finished g)
    (h : Stands parameters g before [] n done) :
  (n = .stop ∧ done = [])
    ∨ ((g.content n).observations = done ∧ (g.content n).target? .next = some .stop)
  := by
  cases h with
  | here h _ hstanding =>
      obtain rfl := Except.ok.inj (hcode.symm.trans h.emitted)
      cases hcursor : aₙ.cursor with
      | between fallsFrom labels =>
          left
          rw [standing, hcursor] at hstanding
          obtain ⟨rfl, rfl⟩ := Prod.mk.inj hstanding
          exact ⟨rfl, rfl⟩
      | inside b =>
          right
          rw [standing, hcursor] at hstanding
          obtain ⟨rfl, rfl⟩ := Prod.mk.inj hstanding
          use hg.observations b
          apply hg.falls ⟨b, .next⟩
          rw [hcursor]
          rfl
  | stop => exact Or.inl ⟨rfl, rfl⟩

/-- Behind a place the code stands where it stood, or at the next node. -/
theorem Stands.place
    (hcode : (initial parameters).emitAll (before ++ .place l :: after) = .ok aₙ)
    (hg : aₙ.Finished g) (h : Stands parameters g before (.place l :: after) n done) :
  Stands parameters g (before ++ [.place l]) after n done
    ∨ ((g.content n).observations = done ∧ ∃ m, (g.content n).target? .next = some m
      ∧ n.Precedes m ∧ Stands parameters g (before ++ [.place l]) after m [])
  := by
  cases h with
  | here h hreachable hstanding =>
      have h' := h.emit hcode hg (emit_place _ l)
      obtain ⟨hreachable', hstanding', -⟩ := h'.standing_of_place
      have hstands := Stands.here h' hreachable' hstanding'
      obtain ⟨rfl, rfl⟩ | ⟨hobservations, hnext, hprecedes⟩ := h.next_of_standing h' (by simp)
        (fun _ _ => rfl) (fun s hs => Promises.falls (by rw [cursor_moveTo, hs]) rfl) hstanding
      · left
        apply hstands
      · right
        exact ⟨hobservations, _, hnext, hprecedes, hstands⟩

/-- An action which does not end the method happens at the node where the code stands, and the code
stands there afterwards. -/
theorem Stands.act
    (hcode : (initial parameters).emitAll (before ++ .act x :: after) = .ok aₙ)
    (hg : aₙ.Finished g) (hx : x.endsMethod = false)
    (h : Stands parameters g before (.act x :: after) n done) :
  Stands parameters g (before ++ [.act x]) after n (done ++ [.act x])
  := by
  cases h with
  | here h _ hstanding =>
      obtain ⟨a', b, done', hemit, hacted⟩ := h.sound.emit_act x
      rw [hacted.standing] at hstanding
      obtain ⟨rfl, rfl⟩ := Prod.mk.inj hstanding
      have hcursor := hacted.inside hx
      apply Stands.here (h.emit hcode hg hemit)
      · rw [hcursor]
        rfl
      · rw [standing, hcursor]
        simp only [hacted.observations]

/-- A return happens last at the node where the code stands, and the node leads to the stop. -/
theorem Stands.ret
    (hcode : (initial parameters).emitAll (before ++ .act x :: after) = .ok aₙ)
    (hg : aₙ.Finished g) (hx : x.endsMethod = true)
    (h : Stands parameters g before (.act x :: after) n done) :
  (g.content n).observations = done ++ [.act x] ∧ (g.content n).target? .next = some .stop
  := by
  cases h with
  | here h _ hstanding =>
      obtain ⟨a', b, done', hemit, hacted⟩ := h.sound.emit_act x
      rw [hacted.standing] at hstanding
      obtain ⟨rfl, rfl⟩ := Prod.mk.inj hstanding
      have h' := h.emit hcode hg hemit
      have hclosed := h'.closed b hacted.mem (by simp [hacted.nowhere hx, Cursor.nowhere])
      constructor
      · rw [hclosed.2, hacted.observations]
      · apply h'.promises ⟨b, .next⟩ .stop
        apply Promises.led (hacted.stop hx)

/-- The node of a branch leads to where the code goes on by the outcome. -/
theorem Stage.branch
    (hcode : (initial parameters).emitAll (before ++ .branch c t f :: after) = .ok aₙ)
    (hg : aₙ.Finished g) (h : Stage parameters before (.branch c t f :: after) g a) :
  g.kind a.next = .jump ∧ (g.content a.next).observations = [.test c]
    ∧ ∀ (o : Bool) before' after',
      Finds (if o then t else f) before (.branch c t f :: after) before' after' →
        ∃ m, Stands parameters g before' after' m []
          ∧ (g.content a.next).target? (if o then .ifTrue else .ifFalse) = some m
          ∧ ((if o then t else f) ∉ placed before → a.next.Precedes m)
  := by
  obtain ⟨a', hemit, hbranched⟩ := h.sound.emit_branch c t f
  have h' := h.emit hcode hg hemit
  have hclosed := h'.closed a.next hbranched.mem (by simp [hbranched.cursor, Cursor.nowhere])
  constructor
  · apply hclosed.1.trans hbranched.kind
  · constructor
    · rw [hclosed.2, hbranched.test]
    · intro o before' after' hfinds
      have hrefers : a.Refers (.branch c t f) (if o then t else f)
          ⟨a.next, if o then .ifTrue else .ifFalse⟩ a' := by
        cases o with
        | true => apply hbranched.refersTrue
        | false => apply hbranched.refersFalse
      exact h.stands_of_finds hcode hg hemit rfl hrefers hbranched.mem hfinds

/-- A branch stands at its own node, or the block where the code stands leads there. -/
theorem Stands.branch_cases
    (hcode : (initial parameters).emitAll (before ++ .branch c t f :: after) = .ok aₙ)
    (hg : aₙ.Finished g) (h : Stands parameters g before (.branch c t f :: after) n done) :
  ∃ a, Stage parameters before (.branch c t f :: after) g a ∧ a.cursor.isReachable = true
    ∧ ((a.next = n ∧ done = [])
      ∨ ((g.content n).observations = done ∧ (g.content n).target? .next = some a.next
        ∧ n.Precedes a.next))
  := by
  cases h with
  | here h hreachable hstanding =>
      obtain ⟨a', hemit, hbranched⟩ := h.sound.emit_branch c t f
      refine ⟨_, h, hreachable, ?_⟩
      apply h.next_of_standing (h.emit hcode hg hemit)
      · simp [hbranched.cursor, Cursor.nowhere]
      · apply hbranched.observations
      · apply hbranched.promises
      · apply hstanding
  | branch h hreachable => exact ⟨_, h, hreachable, Or.inl ⟨rfl, rfl⟩⟩

/-- The node where a jump stands leads to where the code goes on. -/
theorem Stands.jump
    (hcode : (initial parameters).emitAll (before ++ .jump l :: after) = .ok aₙ)
    (hg : aₙ.Finished g) (h : Stands parameters g before (.jump l :: after) n done) :
  (g.content n).observations = done
    ∧ ∀ before' after', Finds l before (.jump l :: after) before' after' →
      ∃ m, Stands parameters g before' after' m [] ∧ (g.content n).target? .next = some m
        ∧ (l ∉ placed before → n.Precedes m)
  := by
  cases h with
  | here h hreachable hstanding =>
      obtain ⟨a', b, done', hemit, hjumped⟩ := h.sound.emit_jump hreachable l
      rw [hjumped.standing] at hstanding
      obtain ⟨rfl, rfl⟩ := Prod.mk.inj hstanding
      have h' := h.emit hcode hg hemit
      have hclosed := h'.closed b hjumped.mem (by simp [hjumped.cursor, Cursor.nowhere])
      constructor
      · rw [hclosed.2, hjumped.observations]
      · intro before' after' hfinds
        exact h.stands_of_finds hcode hg hemit rfl hjumped.refers hjumped.mem hfinds

/-- The start leads to where the code stands before its first instruction. -/
theorem exists_first
    (hcode : (initial parameters).emitAll code = .ok aₙ) (hg : aₙ.Finished g) :
  ∃ n, (g.content .start).target? .next = some n ∧ (g.content .start).observations = []
    ∧ Node.start.Precedes n ∧ Stands parameters g [] code n []
  := by
  obtain ⟨a, hstage⟩ := exists_stage (List.nil_append code ▸ hcode) hg
  obtain rfl := Except.ok.inj hstage.emitted
  have hstart : .start ∈ (initial parameters).graph.nodes := by simp [FlowGraph.nodes]
  refine ⟨landing code 0, ?_, ?_, ?_, ?_⟩
  · apply hstage.promises ⟨.start, .next⟩
    apply Promises.falls rfl rfl
  · apply (hstage.closed .start hstart (by simp [initial])).2
  · apply precedes_landing hstart (Nat.le_refl 0)
  · apply Stands.here hstage rfl rfl

/-! ### The simulation -/

/-- From where the code stands, the graph goes on as the code runs. -/
theorem Stands.continues
    (hcode : (initial parameters).emitAll code = .ok aₙ) (hg : aₙ.Finished g)
    (happend : before ++ after = code) (hstands : Stands parameters g before after n done)
    (h : Executes before after os es e) :
  g.Continues n os (done ++ es) e
  := by
  induction h generalizing n done with
  | @stop before os =>
      rw [← happend, List.append_nil] at hcode
      obtain ⟨rfl, rfl⟩ | ⟨rfl, hnext⟩ := hstands.end hcode hg
      · apply FlowGraph.Continues.stop os
      · apply FlowGraph.Continues.step hnext (FlowGraph.Continues.stop os)
  | place h ih =>
      have hrest := fun {n done} => @ih n done (by simpa using happend)
      obtain hstands | ⟨rfl, m, hnext, -, hstands⟩ := hstands.place (happend ▸ hcode) hg
      · apply hrest hstands
      · apply FlowGraph.Continues.step hnext (hrest hstands)
  | act hx h ih =>
      have hstands' := hstands.act (happend ▸ hcode) hg hx
      simpa using ih (by simpa using happend) hstands'
  | ret hx =>
      obtain ⟨hobservations, hnext⟩ := hstands.ret (happend ▸ hcode) hg hx
      rw [← hobservations, ← List.append_nil (g.content n).observations]
      apply FlowGraph.Continues.step hnext (FlowGraph.Continues.stop _)
  | wait =>
      obtain ⟨a, hstage, -, ⟨rfl, rfl⟩ | ⟨rfl, hnext, -⟩⟩ :=
        hstands.branch_cases (happend ▸ hcode) hg
      all_goals have hwait := FlowGraph.Continues.wait (hstage.branch (happend ▸ hcode) hg).1
      · apply hwait
      · apply FlowGraph.Continues.step hnext hwait
  | @branch before after before' after' c t f o os es e hl h ih =>
      obtain ⟨a, hstage, -, hcases⟩ := hstands.branch_cases (happend ▸ hcode) hg
      obtain ⟨-, hobservations, hbranch⟩ := hstage.branch (happend ▸ hcode) hg
      obtain ⟨m, hstands', hm, -⟩ := hbranch o before' after' hl
      have hstep := FlowGraph.Continues.step hm (ih (hl.append_eq.trans happend) hstands')
      rw [hobservations] at hstep
      have hnode : g.Continues a.next (o :: os) (.test c :: es) e := by
        cases o <;> apply hstep
      obtain ⟨rfl, rfl⟩ | ⟨rfl, hnext, -⟩ := hcases
      · apply hnode
      · apply FlowGraph.Continues.step hnext hnode
  | @jump before after before' after' l os es e hl h ih =>
      obtain ⟨rfl, hjump⟩ := hstands.jump (happend ▸ hcode) hg
      obtain ⟨m, hstands', hm, -⟩ := hjump before' after' hl
      apply FlowGraph.Continues.step hm (ih (hl.append_eq.trans happend) hstands')

end Assembly

end MethodFlow
