import MethodFlow.Proofs.LinearCode.Forward
import MethodFlow.Proofs.LinearCode.Lowered

/-!
# Jumps back in lowered code

In lowered code each jump back goes to the head of a loop, where a branch follows, and nothing
before the loop jumps into it: `LinearCode.Heads`, by recursion on the statements.  So whatever is
reached by going back is also reached going forward (`Method.reducible_code`).
-/

namespace MethodFlow

namespace LinearCode

variable {l : Label} {i : Instruction}
  {before after before' after' code first second pre : List Instruction}

/-- The code before the position goes into a loop, whose head is at the label, and nothing before
the loop jumps to a label placed in the loop. -/
def Headed (before : List Instruction) (l : Label) : Prop :=
  ∃ outer c t f inner, before = outer ++ .place l :: .branch c t f :: inner
    ∧ ∀ l' ∈ placed (.place l :: .branch c t f :: inner), l' ∉ targets outer

/-- Every jump back in the code, which stands behind `pre`, goes to the head of a loop. -/
def Heads (pre code : List Instruction) : Prop :=
  ∀ before i after, code = before ++ i :: after → ∀ l ∈ i.targets, l ∈ placed before →
    Headed (pre ++ before) l

theorem heads_nil
    (pre : List Instruction) :
  Heads pre []
  := by
  intro before i after h
  simp at h

theorem heads_singleton
    (pre : List Instruction) (i : Instruction) :
  Heads pre [i]
  := by
  intro before i' after h l _ hl
  cases before with
  | nil => contradiction
  | cons _ before => simp at h

/-- Jumps back in two parts of code stay in their part if none goes from the second to the first. -/
theorem Heads.append
    (hfirst : Heads pre first) (hsecond : Heads (pre ++ first) second)
    (h : ∀ l ∈ targets second, l ∉ placed first) :
  Heads pre (first ++ second)
  := by
  intro before i after hcode l hl hplaced
  obtain ⟨after', rfl⟩ | ⟨before', rfl, rfl⟩ := append_eq_append_cons hcode
  · apply hfirst before i after' rfl l hl hplaced
  · have hl' : l ∉ placed first := by
      apply h
      rw [targets_append, targets_cons]
      simp [hl]
    rw [placed_append, List.mem_append] at hplaced
    rw [← List.append_assoc]
    apply hsecond before' i after rfl l hl (hplaced.resolve_left hl')

theorem Heads.cons
    (h : Heads (pre ++ [i]) code) (hi : ∀ l ∈ targets code, l ∉ i.placed) :
  Heads pre (i :: code)
  := by
  apply (heads_singleton pre i).append h
  simpa [placed] using hi

/-- A label placed behind another instruction, before the code, makes no difference if nothing jumps
to it. -/
theorem Heads.cons_place
    (h : Heads (pre ++ [i] ++ [.place l]) code) (hi : i.placed = []) (hl : l ∉ targets code) :
  Heads pre (i :: .place l :: code)
  := by
  apply Heads.cons
  · apply h.cons
    intro l' hl' hplaced
    rw [List.mem_singleton.mp hplaced] at hl'
    apply hl hl'
  · rw [hi]
    exact fun _ _ => List.not_mem_nil

/-- A jump at the end may go back to the head of the loop it is in. -/
theorem Heads.concat_jump
    (h : Heads pre code) (hl : Headed (pre ++ code) l) :
  Heads pre (code ++ [.jump l])
  := by
  intro before i after hcode l' hl' hplaced
  obtain ⟨after', rfl⟩ | ⟨before', rfl, hjump⟩ := append_eq_append_cons hcode
  · apply h before i after' rfl l' hl' hplaced
  · cases before' with
    | nil =>
        obtain ⟨rfl, -⟩ := List.cons.inj hjump
        obtain rfl := List.mem_singleton.mp hl'
        rwa [List.append_nil]
    | cons _ before' => simp at hjump

theorem heads_places
    (pre : List Instruction) (labels : List Label) :
  Heads pre (labels.map .place)
  := by
  induction labels generalizing pre with
  | nil => apply heads_nil
  | cons l labels ih =>
      apply (ih _).cons
      intro l' hl'
      simp [targets, Instruction.targets] at hl'

end LinearCode

open LinearCode

mutual

/-- Jumps back in the code of a statement go to heads of loops. -/
theorem Lowered.heads
    {s : Stmt} {pre code : List Instruction} (h : Lowered s code) (hnodup : (placed code).Nodup)
    (hentry : ∀ l ∈ placed code, l ∉ targets pre) :
  Heads pre code
  := by
  cases h with
  | act a => apply heads_singleton
  | branch hfirst hsecond =>
      have hbody := hfirst.targets_subset
      obtain ⟨hotherwise, hifFalse, hstop⟩ := hsecond.targets_subset
      simp only [placed_cons, placed_append, Instruction.placed, List.nil_append,
        List.singleton_append, List.nodup_cons, List.nodup_append, List.mem_append,
        List.mem_cons] at hnodup hentry
      apply Heads.cons_place _ rfl
      · rw [targets_append]
        grind
      · apply Heads.append
        · apply hfirst.heads
          · grind
          · simp only [targets_append, targets_cons, targets_nil, Instruction.targets]
            grind
        · apply hsecond.heads
          · grind
          · simp only [targets_append, targets_cons, targets_nil, Instruction.targets]
            grind
        · grind
  | @loop c _ header inside exit round h =>
      have hround := h.targets_subset
      simp only [placed_cons, placed_append, placed_nil, Instruction.placed, List.nil_append,
        List.singleton_append, List.nodup_cons, List.nodup_append, List.mem_append,
        List.mem_cons] at hnodup hentry
      have hinner :
          Heads pre (.place header :: .branch c inside exit :: .place inside :: round) := by
        apply Heads.cons
        · apply Heads.cons_place _ rfl
          · grind
          · apply h.heads
            · grind
            · simp only [targets_append, targets_cons, targets_nil, Instruction.targets]
              grind
        · simp only [targets_cons, Instruction.targets, Instruction.placed]
          grind
      have hheaded : Headed
          (pre ++ .place header :: .branch c inside exit :: .place inside :: round) header := by
        use pre, c, inside, exit, .place inside :: round, rfl
        simp only [placed_cons, Instruction.placed]
        grind
      have hcode := (hinner.concat_jump hheaded).append (heads_singleton _ (.place exit)) (by
        simp [targets, Instruction.targets])
      simpa using hcode
  | block h => apply h.heads hnodup hentry

/-- Jumps back in the code of a list of statements go to heads of loops. -/
theorem LoweredBody.heads
    {body : List Stmt} {pre code : List Instruction} (h : LoweredBody body code)
    (hnodup : (placed code).Nodup) (hentry : ∀ l ∈ placed code, l ∉ targets pre) :
  Heads pre code
  := by
  cases h with
  | nil => apply heads_nil
  | cons hfirst hsecond =>
      have hfirst' := hfirst.targets_subset
      have hsecond' := hsecond.targets_subset
      simp only [placed_append, List.nodup_append, List.mem_append] at hnodup hentry
      apply Heads.append
      · apply hfirst.heads hnodup.1
        grind
      · apply hsecond.heads hnodup.2.1
        rw [targets_append]
        grind
      · grind

/-- Jumps back in the code behind the body of a branch go to heads of loops, where the code before
it may jump to the labels the code is given. -/
theorem LoweredElse.heads
    {ifFalse : Label} {stop : Option Label} {otherwise : Else} {pre code : List Instruction}
    (h : LoweredElse ifFalse stop otherwise code) (hnodup : (placed code).Nodup)
    (hentry : ∀ l ∈ placed code, l ≠ ifFalse → some l ≠ stop → l ∉ targets pre) :
  Heads pre code
  := by
  cases h with
  | absent =>
      rw [← List.map_cons]
      apply heads_places
  | @block _ stop _ second h =>
      have hsecond := h.targets_subset
      simp only [placed_cons, placed_append, placed_nil, Instruction.placed, List.nil_append,
        List.singleton_append, List.nodup_cons, List.nodup_append, List.mem_append,
        List.mem_cons, ne_eq, Option.some.injEq] at hnodup hentry
      apply Heads.cons_place _ rfl
      · simp only [targets_append, targets_cons, targets_nil, Instruction.targets]
        grind
      · apply Heads.append
        · apply h.heads
          · grind
          · simp only [targets_append, targets_cons, targets_nil, Instruction.targets]
            grind
        · apply heads_singleton
        · simp [targets, Instruction.targets]
  | branch hsecond hrest =>
      have hbody := hsecond.targets_subset
      obtain ⟨hotherwise, honFalse, hstop⟩ := hrest.targets_subset
      simp only [placed_cons, placed_append, Instruction.placed, List.nil_append,
        List.singleton_append, List.nodup_cons, List.nodup_append, List.mem_append,
        List.mem_cons, ne_eq, Option.some.injEq] at hnodup hentry
      apply Heads.cons_place _ rfl
      · simp only [targets_append, targets_cons, Instruction.targets]
        grind
      · apply Heads.cons_place _ rfl
        · rw [targets_append]
          grind
        · apply Heads.append
          · apply hsecond.heads
            · grind
            · simp only [targets_append, targets_cons, targets_nil, Instruction.targets]
              grind
          · apply hrest.heads
            · grind
            · simp only [targets_append, targets_cons, targets_nil, Instruction.targets]
              grind
          · grind

end

namespace LinearCode

variable {l : Label} {before after before' after' code : List Instruction}

/-- Code which places a label once is divided by its place in one way. -/
theorem eq_of_append_place
    (hnodup : (placed (before ++ .place l :: after)).Nodup)
    (h : before ++ .place l :: after = before' ++ .place l :: after') :
  before = before' ∧ after = after'
  := by
  obtain ⟨hbefore, hafter⟩ := not_mem_placed_of_nodup hnodup
  obtain ⟨between, rfl, hbetween⟩ | ⟨between, rfl, hbetween⟩ := List.append_eq_append_iff.mp h
  · cases between with
    | nil =>
        obtain ⟨-, rfl⟩ := List.cons.inj hbetween
        simp
    | cons i between =>
        obtain ⟨rfl, rfl⟩ := List.cons.inj hbetween
        simp [Instruction.placed] at hafter
  · cases between with
    | nil =>
        obtain ⟨-, rfl⟩ := List.cons.inj hbetween
        simp
    | cons i between =>
        obtain ⟨rfl, -⟩ := List.cons.inj hbetween
        simp [Instruction.placed] at hbefore

end LinearCode

/-- In the code of a method, a jump back goes to a branch which is also reached going forward. -/
theorem Method.reducible_code
    (m : Method) :
  Reducible m.code
  := by
  rintro before after ⟨before₁, i, after₁, l, hforward, hl, hplaced, hfinds⟩
  have hheads : Heads [] m.code :=
    (Stmt.lowered_bodyCode m.body 0).heads m.nodup_placed fun _ _ => List.not_mem_nil
  obtain ⟨outer, c, t, f, inner, rfl, hentry⟩ :=
    hheads before₁ i after₁ hforward.append_eq.symm l hl hplaced
  have hcode : outer ++ (.place l :: .branch c t f :: inner ++ i :: after₁) = m.code := by
    rw [← hforward.append_eq, List.append_assoc]
  obtain ⟨before, rfl⟩ := hfinds.exists_place
  have hplace : outer ++ .place l :: (.branch c t f :: inner ++ i :: after₁)
      = before ++ .place l :: after := by
    have hfound := hfinds.append_eq
    simp only [List.append_assoc, List.cons_append, List.nil_append] at hfound ⊢
    rw [hfound]
  have hnodup : (placed (outer ++ .place l :: (.branch c t f :: inner ++ i :: after₁))).Nodup := by
    rw [← List.cons_append, hcode]
    apply m.nodup_placed
  obtain ⟨rfl, rfl⟩ := eq_of_append_place hnodup hplace
  constructor
  · apply Forward.place
    rw [← hcode] at hforward ⊢
    apply hforward.enter
    · apply List.prefix_append
    · apply List.prefix_rfl
    · apply hentry
  · exact ⟨c, t, f, _, rfl⟩

end MethodFlow
