import MethodFlow.Proofs.Assembly.Stage
import MethodFlow.Proofs.Assembly.Steps

/-!
# Returns end their blocks

While code is emitted, a return is the last thing which happens at its node, and its node leads to
the stop; in a block in which the cursor is there is no return: `Assembly.Returning`.  A slot which
is led anywhere was not set before, so a node which leads to the stop goes on doing so.  In a
finished graph every return ends its block (`Assembly.endsReturns_of_complete`).
-/

namespace MethodFlow

open LinearCode

namespace FlowGraph

variable {g g' : FlowGraph} {n : Node}

/-- A return is the last thing which happens at the node, and the node leads to the stop then. -/
def EndsReturns (g : FlowGraph) (n : Node) : Prop :=
  ∀ before x after, (g.content n).observations = before ++ .act x :: after → x.endsMethod = true →
    after = [] ∧ (g.content n).target? .next = some .stop

/-- No return happens at the node. -/
def NeverReturns (g : FlowGraph) (n : Node) : Prop :=
  ∀ x, .act x ∈ (g.content n).observations → x.endsMethod = false

theorem NeverReturns.endsReturns
    (h : g.NeverReturns n) :
  g.EndsReturns n
  := by
  intro before x after hx hends
  rw [h x (by simp [hx])] at hends
  contradiction

/-- Where the same happens, returns are in the same place, if the node still leads to the stop. -/
theorem EndsReturns.congr
    (h : g.EndsReturns n) (hobservations : (g'.content n).observations = (g.content n).observations)
    (hstop : (g.content n).target? .next = some .stop →
      (g'.content n).target? .next = some .stop) :
  g'.EndsReturns n
  := by
  intro before x after hx hends
  rw [hobservations] at hx
  exact (h before x after hx hends).imp_right hstop

/-- Behind what is no return, a return may happen if the node leads to the stop. -/
theorem NeverReturns.endsReturns_of_concat
    {x : Action} (h : g.NeverReturns n)
    (hobservations : (g'.content n).observations = (g.content n).observations ++ [.act x])
    (hstop : x.endsMethod = true → (g'.content n).target? .next = some .stop) :
  g'.EndsReturns n
  := by
  intro before y after hy hends
  rw [hobservations] at hy
  obtain rfl | ⟨after, i, rfl⟩ := after.eq_nil_or_concat'
  · obtain ⟨-, heq⟩ := List.append_inj' hy rfl
    obtain rfl : x = y := by simpa using heq
    exact ⟨rfl, hstop hends⟩
  · rw [← List.cons_append, ← List.append_assoc] at hy
    obtain ⟨heq, -⟩ := List.append_inj' hy rfl
    rw [h y (by simp [heq])] at hends
    contradiction

end FlowGraph

namespace Assembly

variable {parameters : List Parameter} {a a' : Assembly} {c : Content} {g g' : FlowGraph}
  {code : List Instruction} {i : Instruction} {l : Label} {s : Slot} {b : Node}
  {cursor : Cursor}

/-- Returns end their nodes, and there is none in a block in which the cursor is. -/
structure Returning (g : FlowGraph) (cursor : Cursor) : Prop where
  ends : ∀ n, g.EndsReturns n
  inside : ∀ b, cursor = .inside b → g.NeverReturns b

theorem Returning.leave
    (h : Returning g cursor) (fallsFrom : Option Slot) (labels : List Label) :
  Returning g (.between fallsFrom labels)
  where
  ends := h.ends
  inside _ hb := by contradiction

/-- Returns stay where they are when slots are led somewhere which were not set. -/
theorem Returning.rewired
    {P : Slot → Prop} {n : Node} (h : Returning g cursor) (hrewired : g.Rewired P n g')
    (hunset : ∀ s, P s → (g.content s.node).target? s.exit = none) :
  Returning g' cursor
  where
  ends m := by
    apply (h.ends m).congr (hrewired.observations m)
    intro hstop
    apply (hrewired.kept ⟨m, .next⟩ _).trans hstop
    intro hP
    have hnone := (hunset ⟨m, .next⟩ hP).symm.trans hstop
    contradiction
  inside b hb := by
    intro x hx
    rw [hrewired.observations] at hx
    apply h.inside b hb x hx

theorem Returning.refer
    (h : Returning a.graph cursor) (hs : (a.graph.content s.node).target? s.exit = none)
    (hrefer : a.refer l s = .ok a') :
  Returning a'.graph cursor
  := by
  obtain ⟨n, -, hexit, rfl⟩ | rfl := refer_cases hrefer
  · apply h.rewired (FlowGraph.rewired_redirect hexit n)
    rintro s rfl
    apply hs
  · apply h

theorem target?_refer_of_ne
    {s' : Slot} (h : s' ≠ s) (hrefer : a.refer l s = .ok a') :
  (a'.graph.content s'.node).target? s'.exit = (a.graph.content s'.node).target? s'.exit
  := by
  obtain ⟨n, -, -, rfl⟩ | rfl := refer_cases hrefer
  · apply FlowGraph.target?_redirect_of_ne h
  · rfl

/-- Returns stay where they are when a node is made where none happens. -/
theorem Grown.returning
    (hgrown : a.Grown c g) (hsound : a.Sound) (h : Returning a.graph a.cursor)
    (hc : ∀ x, .act x ∈ c.observations → x.endsMethod = false) :
  Returning g (.inside a.next)
  := by
  have hnext : g.NeverReturns a.next := by
    intro x hx
    rw [hgrown.observations_next] at hx
    apply hc x hx
  constructor
  · intro n
    by_cases hold : n ∈ a.graph.nodes
    · apply (h.ends n).congr (hgrown.observations n hold)
      intro hstop
      apply (hgrown.kept ⟨n, .next⟩ hold _).trans hstop
      intro henters
      have hnone := (hsound.unset _ henters.mem_openSlots).symm.trans hstop
      contradiction
    · by_cases hn : n ∈ g.nodes
      · rw [hgrown.eq_next hold hn]
        apply hnext.endsReturns
      · apply FlowGraph.NeverReturns.endsReturns
        intro x hx
        rw [FlowGraph.content_of_not_mem_nodes hn] at hx
        contradiction
  · intro b hb
    obtain rfl := Cursor.inside.inj hb
    apply hnext

/-- No return happens yet in a block which is opened. -/
theorem Returning.openBlock
    (hsound : a.Sound) (h : Returning a.graph a.cursor) (hopen : a.openBlock = .ok (b, a')) :
  Returning a'.graph (.inside b)
  := by
  obtain ⟨hcursor, rfl⟩ | ⟨g, -, hgrown, rfl, rfl⟩ := hsound.openBlock_cases hopen
  · rw [← hcursor]
    apply h
  · apply hgrown.returning hsound h
    intro x hx
    contradiction

/-! ### Code -/

/-- An action happens at the end of its block, and if it is a return, the block leads to the
stop. -/
theorem Returning.emit_act
    (hsound : a.Sound) (h : Returning a.graph a.cursor) {x : Action}
    (hemit : a.emit (.act x) = .ok a') :
  Returning a'.graph a'.cursor
  := by
  obtain ⟨b, a₁, hopen, hcases⟩ := emit_act_cases hemit
  have hopened := h.openBlock hsound hopen
  have hnever := hopened.inside b rfl
  have hextend : ((a₁.graph.extend b x).content b).observations
      = (a₁.graph.content b).observations ++ [.act x] := by
    rw [FlowGraph.content_extend, if_pos rfl]
    apply Content.observations_append ((hsound.sound_of_openBlock hopen).block b rfl)
  have hother : ∀ n, n ≠ b → (a₁.graph.extend b x).EndsReturns n := by
    intro n hn
    apply (hopened.ends n).congr
    · rw [FlowGraph.content_extend, if_neg hn]
    · rw [FlowGraph.target?_extend]
      exact fun h => h
  obtain ⟨hx, rfl⟩ | ⟨hx, hexit, rfl⟩ := hcases
  · constructor
    · intro n
      by_cases hn : n = b
      · subst hn
        apply hnever.endsReturns_of_concat hextend
        simp [hx]
      · apply hother n hn
    · intro b' hb' y hy
      obtain rfl := Cursor.inside.inj hb'
      rw [hextend, List.mem_append, List.mem_singleton] at hy
      obtain hy | hy := hy
      · apply hnever y hy
      · obtain rfl := Observation.act.inj hy
        apply hx
  · rw [FlowGraph.exits, ← FlowGraph.kind_extend a₁.graph b x] at hexit
    have hrewired := FlowGraph.rewired_redirect (s := ⟨b, .next⟩) hexit .stop
    constructor
    · intro n
      by_cases hn : n = b
      · subst hn
        apply hnever.endsReturns_of_concat ((hrewired.observations n).trans hextend)
        intro _
        apply hrewired.led ⟨n, .next⟩ rfl
      · apply (hother n hn).congr (hrewired.observations n)
        intro hstop
        apply (hrewired.kept ⟨n, .next⟩ _).trans hstop
        simp [hn]
    · intro _ hb'
      contradiction

/-- Every instruction leaves returns at the ends of their blocks. -/
theorem Returning.emit
    (hsound : a.Sound) (h : Returning a.graph a.cursor) (hemit : a.emit i = .ok a') :
  Returning a'.graph a'.cursor
  := by
  cases i with
  | place l =>
      cases hemit
      apply h.leave
  | act x => apply h.emit_act hsound hemit
  | branch x ifTrue ifFalse =>
      obtain ⟨g, a₁, a₂, hgrown, htrue, hfalse, rfl⟩ := hsound.emit_branch_cases hemit
      have hmade : Returning g .nowhere :=
        (hgrown.returning hsound h (by simp [Content.observations])).leave none []
      have hne : (⟨a.next, .ifFalse⟩ : Slot) ≠ ⟨a.next, .ifTrue⟩ := by simp
      have hunset : (a₁.graph.content a.next).target? .ifFalse = none :=
        (target?_refer_of_ne hne htrue).trans (hgrown.unset_next .ifFalse)
      have hreferred : Returning a₁.graph .nowhere := Returning.refer
        (a := a.landed a.next g) (s := ⟨a.next, .ifTrue⟩) hmade (hgrown.unset_next .ifTrue) htrue
      apply hreferred.refer hunset hfalse
  | jump l =>
      obtain ⟨-, rfl⟩ | ⟨b, a₁, a₂, hopen, hrefer, rfl⟩ := emit_jump_cases hemit
      · apply h
      · apply Returning.refer ((h.openBlock hsound hopen).leave none []) _ hrefer
        apply (hsound.sound_of_openBlock hopen).unset ⟨b, .next⟩
        apply List.mem_cons_self

/-- Code of any length leaves returns at the ends of their blocks. -/
theorem returning
    (h : (initial parameters).emitAll code = .ok a) :
  Returning a.graph a.cursor
  := by
  apply emitAll_induction (P := fun _ a => Returning a.graph a.cursor) ?first ?step h
  case first =>
    constructor
    · intro n
      apply FlowGraph.NeverReturns.endsReturns
      intro x hx
      cases n <;> contradiction
    · intro _ hb
      contradiction
  case step =>
    intro code i a a' _ hsound hreturning hemit
    apply hreturning.emit hsound hemit

/-- Every return ends its block in a finished graph. -/
theorem endsReturns_of_complete
    (h : (initial parameters).emitAll code = .ok a) (hcomplete : a.complete = .ok g) (n : Node) :
  g.EndsReturns n
  := by
  have hsound := sound_of_emitAll h
  have hreturning : Returning g a.cursor := by
    apply (returning h).rewired (hsound.rewired_of_complete hcomplete)
    intro s hs
    apply hsound.unset s hs.mem_openSlots
  apply hreturning.ends n

end Assembly

end MethodFlow
