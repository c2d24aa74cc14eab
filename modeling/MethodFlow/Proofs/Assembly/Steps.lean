import MethodFlow.Proofs.Assembly.Emission

/-!
# What an instruction does

Each instruction changes an assembly by a few elementary changes: a node is made and entered, an
action is added to a block, a slot is led to a node or waits for a label, the cursor moves.  There
is one lemma for each operation and each instruction, which says all that it can come to; whatever
the elementary changes keep is kept by the instruction.
-/

namespace MethodFlow

namespace Assembly

variable {a a' : Assembly} {g : FlowGraph} {l : Label} {s : Slot} {b : Node}

/-- Opening a block comes to the block in which the cursor is, or makes a new one. -/
theorem Sound.openBlock_cases
    (h : a.Sound) (hopen : a.openBlock = .ok (b, a')) :
  (a.cursor = .inside b ∧ a' = a)
    ∨ ∃ g, (∀ m, a.cursor ≠ .inside m) ∧ a.Grown (.block [] none) g ∧ b = a.next
      ∧ a' = a.landed a.next g
  := by
  cases hcursor : a.cursor with
  | inside b' =>
      left
      rw [Assembly.openBlock, hcursor] at hopen
      cases hopen
      exact ⟨rfl, rfl⟩
  | between fallsFrom labels =>
      right
      obtain ⟨g, hg, hgrown⟩ := h.land (.block [] none) (fun p => by cases p <;> rfl)
      rw [openBlock_of_between hcursor, hg] at hopen
      cases hopen
      exact ⟨g, fun m hm => by contradiction, hgrown, rfl, rfl⟩

theorem Sound.sound_of_openBlock
    (h : a.Sound) (hopen : a.openBlock = .ok (b, a')) :
  (a'.moveTo (.inside b)).Sound
  := by
  obtain ⟨b', a'', hopen', hsound, -⟩ := h.openBlock
  obtain ⟨rfl, rfl⟩ := Prod.mk.inj (Except.ok.inj (hopen'.symm.trans hopen))
  apply hsound

/-- Referring to a label leads the slot to the node of the label, or makes it wait. -/
theorem refer_cases
    (h : a.refer l s = .ok a') :
  (∃ n, a.node? l = some n ∧ s.exit ∈ a.graph.exits s.node
      ∧ a' = { a with graph := a.graph.redirect s n })
    ∨ a' = { a with deferred := a.deferred ++ [(l, s)] }
  := by
  unfold Assembly.refer at h
  split at h
  case h_1 n hn =>
    left
    obtain ⟨g, hg, hreturn⟩ := ok_of_bind h
    obtain ⟨hexit, rfl⟩ := FlowGraph.setTarget_eq_ok_iff.mp hg
    cases hreturn
    exact ⟨n, hn, hexit, rfl⟩
  case h_2 =>
    right
    cases h
    rfl

/-- An action is added to the block which is opened.  Then the cursor stays in the block, or the
block is led to the stop and left. -/
theorem emit_act_cases
    {x : Action} (h : a.emit (.act x) = .ok a') :
  ∃ b a₁, a.openBlock = .ok (b, a₁)
    ∧ ((x.endsMethod = false
        ∧ a' = { a₁ with graph := a₁.graph.extend b x, cursor := .inside b })
      ∨ (x.endsMethod = true ∧ .next ∈ a₁.graph.exits b
        ∧ a' = { a₁ with
          graph := (a₁.graph.extend b x).redirect ⟨b, .next⟩ .stop, cursor := .nowhere }))
  := by
  obtain ⟨⟨b, a₁⟩, hopen, h⟩ := ok_of_bind h
  obtain ⟨g, hg, h⟩ := ok_of_bind h
  obtain rfl : a₁.graph.extend b x = g := by
    unfold FlowGraph.append at hg
    split at hg
    · apply Except.ok.inj hg
    · contradiction
  use b, a₁, hopen
  cases hx : x.endsMethod with
  | false =>
      left
      simp only [hx, Bool.false_eq_true, if_false] at h
      cases h
      exact ⟨rfl, rfl⟩
  | true =>
      right
      simp only [hx, if_true] at h
      obtain ⟨a₂, hconnect, hreturn⟩ := ok_of_bind h
      obtain ⟨g, hg, hreturn'⟩ := ok_of_bind hconnect
      obtain ⟨hexit, rfl⟩ := FlowGraph.setTarget_eq_ok_iff.mp hg
      cases hreturn'
      cases hreturn
      rw [FlowGraph.exits, FlowGraph.kind_extend] at hexit
      exact ⟨rfl, hexit, rfl⟩

/-- A branch makes a jump, refers its two slots to the labels, and leaves. -/
theorem Sound.emit_branch_cases
    (h : a.Sound) {x : Expr} {ifTrue ifFalse : Label}
    (hemit : a.emit (.branch x ifTrue ifFalse) = .ok a') :
  ∃ g a₁ a₂, a.Grown (.jump x none none) g
    ∧ (a.landed a.next g).refer ifTrue ⟨a.next, .ifTrue⟩ = .ok a₁
    ∧ a₁.refer ifFalse ⟨a.next, .ifFalse⟩ = .ok a₂ ∧ a' = a₂.moveTo .nowhere
  := by
  obtain ⟨g, hg, hgrown⟩ := h.land (.jump x none none) (fun p => by cases p <;> rfl)
  obtain ⟨a₀, hland, hemit⟩ := ok_of_bind hemit
  obtain rfl := Except.ok.inj (hg.symm.trans hland)
  obtain ⟨a₁, htrue, hemit⟩ := ok_of_bind hemit
  obtain ⟨a₂, hfalse, hreturn⟩ := ok_of_bind hemit
  cases hreturn
  exact ⟨g, a₁, a₂, hgrown, htrue, hfalse, rfl⟩

/-- A jump refers the slot of the block which is opened to the label, and leaves.  Where nothing
reaches it, it does nothing. -/
theorem emit_jump_cases
    (h : a.emit (.jump l) = .ok a') :
  (a.cursor = .nowhere ∧ a' = a)
    ∨ ∃ b a₁ a₂, a.openBlock = .ok (b, a₁) ∧ a₁.refer l ⟨b, .next⟩ = .ok a₂
      ∧ a' = a₂.moveTo .nowhere
  := by
  cases hreachable : a.cursor.isReachable with
  | true =>
      right
      rw [emit, if_pos hreachable] at h
      obtain ⟨⟨b, a₁⟩, hopen, h⟩ := ok_of_bind h
      obtain ⟨a₂, hrefer, hreturn⟩ := ok_of_bind h
      cases hreturn
      exact ⟨b, a₁, a₂, hopen, hrefer, rfl⟩
  | false =>
      left
      obtain ⟨hself, -⟩ := emit_jump_of_not_reachable hreachable l
      exact ⟨eq_nowhere_of_not_reachable hreachable, Except.ok.inj (h.symm.trans hself)⟩

end Assembly

end MethodFlow
