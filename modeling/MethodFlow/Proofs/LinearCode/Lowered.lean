import MethodFlow.LinearCode.Lowering
import MethodFlow.Proofs.LinearCode.Run

/-!
# The shape of lowered code

`Lowered`, `LoweredBody` and `LoweredElse` describe the code of statements whatever labels it takes.
`Method.nodup_placed` says that the labels of a method are each placed once, and
`LoweredBody.targets_subset` that no other labels are jumped to.
-/

namespace MethodFlow

open LinearCode

mutual

/-- The code of a statement. -/
inductive Lowered : Stmt → List Instruction → Prop where
  | act (a : Action) : Lowered (.act a) [.act a]
  | branch {c : Expr} {body : List Stmt} {otherwise : Else} {ifTrue ifFalse : Label}
      {stop : Option Label} {first second : List Instruction} (hfirst : LoweredBody body first)
      (hsecond : LoweredElse ifFalse stop otherwise second) :
      Lowered (.branch c body otherwise)
        (.branch c ifTrue ifFalse :: .place ifTrue :: (first ++ second))
  | loop {c : Expr} {body : List Stmt} {header inside exit : Label} {round : List Instruction}
      (h : LoweredBody body round) :
      Lowered (.loop c body) (.place header :: .branch c inside exit :: .place inside ::
        (round ++ [.jump header, .place exit]))
  | block {body : List Stmt} {code : List Instruction} (h : LoweredBody body code) :
      Lowered (.block body) code

/-- The code of a list of statements. -/
inductive LoweredBody : List Stmt → List Instruction → Prop where
  | nil : LoweredBody [] []
  | cons {s : Stmt} {body : List Stmt} {first second : List Instruction} (hfirst : Lowered s first)
      (hsecond : LoweredBody body second) : LoweredBody (s :: body) (first ++ second)

/-- The code which follows the body of a branch: `ifFalse` is where it starts when the condition of
the branch fails, and `stop` is where the arms of the chain end, if they end at a label. -/
inductive LoweredElse : Label → Option Label → Else → List Instruction → Prop where
  | absent (ifFalse : Label) (stop : Option Label) :
      LoweredElse ifFalse stop .absent (.place ifFalse :: stop.toList.map .place)
  | block {ifFalse stop : Label} {body : List Stmt} {second : List Instruction}
      (h : LoweredBody body second) :
      LoweredElse ifFalse (some stop) (.block body)
        (.jump stop :: .place ifFalse :: (second ++ [.place stop]))
  | branch {ifFalse stop : Label} {c : Expr} {body : List Stmt} {otherwise : Else}
      {onTrue onFalse : Label} {second rest : List Instruction} (hsecond : LoweredBody body second)
      (hrest : LoweredElse onFalse (some stop) otherwise rest) :
      LoweredElse ifFalse (some stop) (.branch c body otherwise)
        (.jump stop :: .place ifFalse :: .branch c onTrue onFalse :: .place onTrue ::
          (second ++ rest))

end

theorem LoweredBody.singleton
    {s : Stmt} {code : List Instruction} (h : Lowered s code) :
  LoweredBody [s] code
  := by
  rw [← List.append_nil code]
  apply LoweredBody.cons h LoweredBody.nil

/-! ### What lowering writes -/

theorem Stmt.run_code_branch
    (c : Expr) (body : List Stmt) (otherwise : Else) (n : Nat) :
  (Stmt.branch c body otherwise).code.run n
    = (let first := (Stmt.bodyCode body).run (n + 2)
      let second := (otherwise.code ⟨n + 1⟩ none).run first.2
      (.branch c ⟨n⟩ ⟨n + 1⟩ :: .place ⟨n⟩ :: (first.1 ++ second.1), second.2))
  := rfl

theorem Stmt.run_code_loop
    (c : Expr) (body : List Stmt) (n : Nat) :
  (Stmt.loop c body).code.run n
    = (let round := (Stmt.bodyCode body).run (n + 3)
      (.place ⟨n⟩ :: .branch c ⟨n + 1⟩ ⟨n + 2⟩ :: .place ⟨n + 1⟩ ::
        (round.1 ++ [.jump ⟨n⟩, .place ⟨n + 2⟩]), round.2))
  := rfl

theorem Stmt.run_bodyCode_cons
    (s : Stmt) (body : List Stmt) (n : Nat) :
  (Stmt.bodyCode (s :: body)).run n
    = (let first := s.code.run n
      let second := (Stmt.bodyCode body).run first.2
      (first.1 ++ second.1, second.2))
  := rfl

theorem Else.run_code_absent
    (ifFalse : Label) (chainEnd : Option Label) (n : Nat) :
  ((Else.absent).code ifFalse chainEnd).run n
    = (.place ifFalse :: chainEnd.toList.map .place, n)
  := rfl

theorem Else.run_code_block
    (ifFalse : Label) (chainEnd : Option Label) (body : List Stmt) (n : Nat) :
  ((Else.block body).code ifFalse chainEnd).run n
    = (let stop := (chainEnd.getDM Label.fresh : StateM Nat Label).run n
      let second := (Stmt.bodyCode body).run stop.2
      (.jump stop.1 :: .place ifFalse :: (second.1 ++ [.place stop.1]), second.2))
  := rfl

/-- The code behind the body of a branch with a further branch as its alternative. -/
theorem Else.run_code_branch
    (ifFalse : Label) (chainEnd : Option Label) (c : Expr) (body : List Stmt) (otherwise : Else)
    (n : Nat) :
  ((Else.branch c body otherwise).code ifFalse chainEnd).run n
    = (let stop := (chainEnd.getDM Label.fresh : StateM Nat Label).run n
      let second := (Stmt.bodyCode body).run (stop.2 + 2)
      let rest := (otherwise.code ⟨stop.2 + 1⟩ (some stop.1)).run second.2
      (.jump stop.1 :: .place ifFalse :: .branch c ⟨stop.2⟩ ⟨stop.2 + 1⟩ :: .place ⟨stop.2⟩ ::
        (second.1 ++ rest.1), rest.2))
  := rfl

mutual

/-- The code of a statement has the shape of one. -/
theorem Stmt.lowered_code
    (s : Stmt) (n : Nat) :
  Lowered s (s.code.run n).1
  := by
  cases s with
  | act a => apply Lowered.act a
  | branch c body otherwise =>
      obtain ⟨stop, -, hsecond⟩ := Else.lowered_code otherwise ⟨n + 1⟩ none
        ((Stmt.bodyCode body).run (n + 2)).2
      apply Lowered.branch (Stmt.lowered_bodyCode body (n + 2)) hsecond
  | loop c body => apply Lowered.loop (Stmt.lowered_bodyCode body (n + 3))
  | block body => apply Lowered.block (Stmt.lowered_bodyCode body n)

/-- The code of a list of statements has the shape of one. -/
theorem Stmt.lowered_bodyCode
    (body : List Stmt) (n : Nat) :
  LoweredBody body ((Stmt.bodyCode body).run n).1
  := by
  cases body with
  | nil => apply LoweredBody.nil
  | cons s body =>
      apply LoweredBody.cons (Stmt.lowered_code s n) (Stmt.lowered_bodyCode body (s.code.run n).2)

/-- The code behind the body of a branch has the shape of one. -/
theorem Else.lowered_code
    (otherwise : Else) (ifFalse : Label) (chainEnd : Option Label) (n : Nat) :
  ∃ stop, (∀ l, chainEnd = some l → stop = some l)
    ∧ LoweredElse ifFalse stop otherwise ((otherwise.code ifFalse chainEnd).run n).1
  := by
  have hstop : ∀ l, chainEnd = some l →
      some ((chainEnd.getDM Label.fresh : StateM Nat Label).run n).1 = some l := by
    rintro l rfl
    rfl
  cases otherwise with
  | absent => exact ⟨chainEnd, fun _ h => h, LoweredElse.absent ifFalse chainEnd⟩
  | block body => exact ⟨_, hstop, LoweredElse.block (Stmt.lowered_bodyCode body _)⟩
  | branch c body otherwise =>
      obtain ⟨_, hchain, hrest⟩ := Else.lowered_code otherwise _ (some _) _
      obtain rfl := hchain _ rfl
      exact ⟨_, hstop, LoweredElse.branch (Stmt.lowered_bodyCode body _) hrest⟩

end

/-! ### Labels are placed once -/

/-- How often a label is among those taken while the number of labels taken grows. -/
def Label.taken (l : Label) (n n' : Nat) : Nat :=
  if n ≤ l.number ∧ l.number < n' then 1 else 0

theorem Label.taken_self
    (l : Label) (n : Nat) :
  l.taken n n = 0
  := by
  apply if_neg
  omega

theorem Label.taken_succ
    (l : Label) (n : Nat) :
  l.taken n (n + 1) = if l = ⟨n⟩ then 1 else 0
  := by
  obtain ⟨number⟩ := l
  simp only [taken, Label.mk.injEq]
  congr 1
  apply propext
  omega

theorem Label.count_singleton
    (l l' : Label) :
  [l'].count l = if l = l' then 1 else 0
  := by
  rw [List.count_singleton]
  simp only [beq_iff_eq, eq_comm (a := l)]

/-- The label of the end of a chain is the given one, or it is taken. -/
theorem Label.count_chainEnd
    (l : Label) (chainEnd : Option Label) (n : Nat) :
  n ≤ ((chainEnd.getDM Label.fresh : StateM Nat Label).run n).2
    ∧ (if l = ((chainEnd.getDM Label.fresh : StateM Nat Label).run n).1 then 1 else 0)
      = (if some l = chainEnd then 1 else 0)
        + l.taken n ((chainEnd.getDM Label.fresh : StateM Nat Label).run n).2
  := by
  cases chainEnd with
  | none =>
      constructor
      · apply Nat.le_succ
      · change (if l = ⟨n⟩ then 1 else 0) = 0 + l.taken n (n + 1)
        rw [l.taken_succ, Nat.zero_add]
  | some stop =>
      constructor
      · apply Nat.le_refl
      · change (if l = stop then 1 else 0) = (if some l = some stop then 1 else 0) + l.taken n n
        simp only [l.taken_self, Option.some.injEq, Nat.add_zero]

mutual

/-- The code of a statement places the labels it takes, each once. -/
theorem Stmt.count_placed_code
    (s : Stmt) (n : Nat) (l : Label) :
  n ≤ (s.code.run n).2 ∧ (placed (s.code.run n).1).count l = l.taken n (s.code.run n).2
  := by
  cases s with
  | act a =>
      constructor
      · apply Nat.le_refl
      · apply (l.taken_self n).symm
  | branch c body otherwise =>
      obtain ⟨hle, hfirst⟩ := Stmt.count_placed_bodyCode body (n + 2) l
      obtain ⟨hle', hsecond⟩ := Else.count_placed_code otherwise ⟨n + 1⟩ none
        ((Stmt.bodyCode body).run (n + 2)).2 l
      simp only [Stmt.run_code_branch]
      constructor
      · omega
      · simp only [placed_cons, placed_append, Instruction.placed, List.count_append,
          List.count_nil, Label.count_singleton, hfirst, hsecond, ← l.taken_succ]
        grind [Label.taken]
  | loop c body =>
      obtain ⟨hle, hround⟩ := Stmt.count_placed_bodyCode body (n + 3) l
      simp only [Stmt.run_code_loop]
      constructor
      · omega
      · simp only [placed_cons, placed_append, placed_nil, Instruction.placed, List.count_append,
          List.count_nil, Label.count_singleton, hround, ← l.taken_succ]
        grind [Label.taken]
  | block body => apply Stmt.count_placed_bodyCode body n l

/-- The code of a list of statements places the labels it takes, each once. -/
theorem Stmt.count_placed_bodyCode
    (body : List Stmt) (n : Nat) (l : Label) :
  n ≤ ((Stmt.bodyCode body).run n).2
    ∧ (placed ((Stmt.bodyCode body).run n).1).count l = l.taken n ((Stmt.bodyCode body).run n).2
  := by
  cases body with
  | nil =>
      constructor
      · apply Nat.le_refl
      · apply (l.taken_self n).symm
  | cons s body =>
      obtain ⟨hle, hfirst⟩ := Stmt.count_placed_code s n l
      obtain ⟨hle', hsecond⟩ := Stmt.count_placed_bodyCode body (s.code.run n).2 l
      simp only [Stmt.run_bodyCode_cons]
      constructor
      · omega
      · rw [placed_append, List.count_append, hfirst, hsecond]
        grind [Label.taken]

/-- The code behind the body of a branch places the labels it takes and those it is given, each
once. -/
theorem Else.count_placed_code
    (otherwise : Else) (ifFalse : Label) (chainEnd : Option Label) (n : Nat) (l : Label) :
  n ≤ ((otherwise.code ifFalse chainEnd).run n).2
    ∧ (placed ((otherwise.code ifFalse chainEnd).run n).1).count l
      = (if l = ifFalse then 1 else 0) + (if some l = chainEnd then 1 else 0)
        + l.taken n ((otherwise.code ifFalse chainEnd).run n).2
  := by
  obtain ⟨hle, hstop⟩ := l.count_chainEnd chainEnd n
  cases otherwise with
  | absent =>
      constructor
      · apply Nat.le_refl
      · have hends : (placed (chainEnd.toList.map .place)).count l
            = if some l = chainEnd then 1 else 0 := by
          cases chainEnd with
          | none => simp
          | some stop => simpa [Instruction.placed] using l.count_singleton stop
        change (placed (.place ifFalse :: chainEnd.toList.map .place)).count l
          = _ + l.taken n n
        rw [placed_cons, Instruction.placed, List.count_append, Label.count_singleton, hends,
          l.taken_self, Nat.add_zero]
  | block body =>
      obtain ⟨hle', hsecond⟩ := Stmt.count_placed_bodyCode body
        ((chainEnd.getDM Label.fresh : StateM Nat Label).run n).2 l
      simp only [Else.run_code_block]
      constructor
      · omega
      · simp only [placed_cons, placed_append, placed_nil, Instruction.placed, List.count_append,
          List.count_nil, Label.count_singleton, hsecond, hstop]
        grind [Label.taken]
  | branch c body otherwise =>
      simp only [Else.run_code_branch]
      generalize (chainEnd.getDM Label.fresh : StateM Nat Label).run n = stop at hle hstop ⊢
      obtain ⟨stop, taken⟩ := stop
      simp only at hle hstop ⊢
      obtain ⟨hle', hsecond⟩ := Stmt.count_placed_bodyCode body (taken + 2) l
      obtain ⟨hle'', hrest⟩ := Else.count_placed_code otherwise ⟨taken + 1⟩ (some stop)
        ((Stmt.bodyCode body).run (taken + 2)).2 l
      constructor
      · omega
      · simp only [Option.some.injEq, hstop, ← l.taken_succ] at hrest
        simp only [placed_cons, placed_append, Instruction.placed, List.count_append,
          List.count_nil, Label.count_singleton, hsecond, hrest, ← l.taken_succ]
        grind [Label.taken]

end

/-- The code of a method places no label twice. -/
theorem Method.nodup_placed
    (m : Method) :
  (placed m.code).Nodup
  := by
  rw [List.nodup_iff_count_le_one]
  intro l
  rw [Method.code, (Stmt.count_placed_bodyCode m.body 0 l).2, Label.taken]
  split_ifs
  · apply Nat.le_refl
  · apply Nat.zero_le

/-! ### Labels which are jumped to are placed -/

mutual

/-- The code of a statement places the labels to which it jumps. -/
theorem Lowered.targets_subset
    {s : Stmt} {code : List Instruction} (h : Lowered s code) :
  targets code ⊆ placed code
  := by
  cases h with
  | act a => apply List.nil_subset _
  | branch hfirst hsecond =>
      have hbody := hfirst.targets_subset
      obtain ⟨hotherwise, hifFalse, -⟩ := hsecond.targets_subset
      simp only [targets_cons, targets_append, placed_cons, placed_append, Instruction.targets,
        Instruction.placed]
      grind
  | loop h =>
      have hround := h.targets_subset
      simp only [targets_nil, targets_cons, targets_append, placed_cons, placed_append,
        Instruction.targets, Instruction.placed]
      grind
  | block h => apply h.targets_subset

/-- The code of a list of statements places the labels to which it jumps. -/
theorem LoweredBody.targets_subset
    {body : List Stmt} {code : List Instruction} (h : LoweredBody body code) :
  targets code ⊆ placed code
  := by
  cases h with
  | nil => apply List.nil_subset _
  | cons hfirst hsecond =>
      have hfirst' := hfirst.targets_subset
      have hsecond' := hsecond.targets_subset
      rw [targets_append, placed_append]
      grind

/-- The code behind the body of a branch places the labels to which it jumps and those it is
given. -/
theorem LoweredElse.targets_subset
    {ifFalse : Label} {stop : Option Label} {otherwise : Else} {code : List Instruction}
    (h : LoweredElse ifFalse stop otherwise code) :
  targets code ⊆ placed code ∧ ifFalse ∈ placed code ∧ ∀ l, stop = some l → l ∈ placed code
  := by
  cases h with
  | absent =>
      cases stop <;> simp [targets, Instruction.targets, Instruction.placed]
  | block h =>
      have hbody := h.targets_subset
      simp only [targets_nil, targets_cons, targets_append, placed_cons, placed_append,
        Instruction.targets, Instruction.placed]
      grind
  | branch hsecond hrest =>
      have hbody := hsecond.targets_subset
      obtain ⟨hotherwise, honFalse, hstop⟩ := hrest.targets_subset
      simp only [targets_cons, targets_append, placed_cons, placed_append, Instruction.targets,
        Instruction.placed]
      grind

end

/-- The code of a method places every label to which it jumps. -/
theorem Method.targets_subset
    (m : Method) :
  targets m.code ⊆ placed m.code
  := (Stmt.lowered_bodyCode m.body 0).targets_subset

end MethodFlow
