import MethodFlow.Proofs.LinearCode.Loops

/-!
# The parts of a method body

A `Part` of a method body is lowered on its own, and its code is put together from `Segment`s:
instructions of its own and the code of smaller parts.  The segments of a part take labels one after
the other (`Part.exists_ledger`), so what stands around a smaller part names none of the labels
which the smaller part takes (`Part.Given.part_apart`).
-/

namespace MethodFlow

open LinearCode

/-- A part of a method body which is lowered on its own. -/
inductive Part where
  /-- A statement. -/
  | stmt (s : Stmt)
  /-- A list of statements. -/
  | body (b : List Stmt)
  /-- What follows the body of a branch, with the label at which it starts when the condition fails
  and the label at which the arms of the chain end, if one is taken already. -/
  | otherwise (e : Else) (ifFalse : Label) (chainEnd : Option Label)

/-- A piece of the code of a part. -/
inductive Segment where
  /-- An instruction of the part itself. -/
  | own (i : Instruction)
  /-- The code of a smaller part, whose labels are numbered from `n` on. -/
  | part (x : Part) (n : Nat)

namespace Part

/-- The linear code of a part. -/
def code : Part → StateM Nat (List Instruction)
  | .stmt s => s.code
  | .body b => Stmt.bodyCode b
  | .otherwise e ifFalse chainEnd => e.code ifFalse chainEnd

/-- The linear code of a part whose labels are numbered from `n` on. -/
def instructions (x : Part) (n : Nat) : List Instruction :=
  (x.code.run n).1

/-- The number of the first label behind those which a part takes from `n` on. -/
def nextLabel (x : Part) (n : Nat) : Nat :=
  (x.code.run n).2

/-- The labels which a part is given. -/
def given : Part → List Label
  | .stmt _ | .body _ => []
  | .otherwise _ ifFalse chainEnd => ifFalse :: chainEnd.toList

/-- The label is among those which the part takes from `n` on. -/
def Takes (x : Part) (n : Nat) (l : Label) : Prop :=
  n ≤ l.number ∧ l.number < x.nextLabel n

/-- The segments of the code of a part whose labels are numbered from `n` on. -/
def segments : Part → Nat → List Segment
  | .stmt (.act a), _ => [.own (.act a)]
  | .stmt (.branch c b e), n =>
    [.own (.branch c ⟨n⟩ ⟨n + 1⟩), .own (.place ⟨n⟩), .part (.body b) (n + 2),
      .part (.otherwise e ⟨n + 1⟩ none) (nextLabel (.body b) (n + 2))]
  | .stmt (.loop c b), n =>
    [.own (.place ⟨n⟩), .own (.branch c ⟨n + 1⟩ ⟨n + 2⟩), .own (.place ⟨n + 1⟩),
      .part (.body b) (n + 3), .own (.jump ⟨n⟩), .own (.place ⟨n + 2⟩)]
  | .stmt (.block b), n => [.part (.body b) n]
  | .body [], _ => []
  | .body (s :: b), n => [.part (.stmt s) n, .part (.body b) (nextLabel (.stmt s) n)]
  | .otherwise .absent ifFalse chainEnd, _ =>
    .own (.place ifFalse) :: chainEnd.toList.map fun l => .own (.place l)
  | .otherwise (.block b) ifFalse chainEnd, n =>
    let stop := (chainEnd.getDM Label.fresh : StateM Nat Label).run n
    [.own (.jump stop.1), .own (.place ifFalse), .part (.body b) stop.2, .own (.place stop.1)]
  | .otherwise (.branch c b e) ifFalse chainEnd, n =>
    let stop := (chainEnd.getDM Label.fresh : StateM Nat Label).run n
    [.own (.jump stop.1), .own (.place ifFalse), .own (.branch c ⟨stop.2⟩ ⟨stop.2 + 1⟩),
      .own (.place ⟨stop.2⟩), .part (.body b) (stop.2 + 2),
      .part (.otherwise e ⟨stop.2 + 1⟩ (some stop.1)) (nextLabel (.body b) (stop.2 + 2))]

end Part

namespace Segment

/-- The linear code of a segment. -/
def instructions : Segment → List Instruction
  | .own i => [i]
  | .part x n => x.instructions n

/-- The linear code of segments one behind the other. -/
def join (segments : List Segment) : List Instruction :=
  segments.flatMap instructions

@[simp]
theorem join_nil :
  join [] = []
  := rfl

@[simp]
theorem join_cons
    (s : Segment) (segments : List Segment) :
  join (s :: segments) = s.instructions ++ join segments
  := rfl

@[simp]
theorem join_append
    (front back : List Segment) :
  join (front ++ back) = join front ++ join back
  := by
  simp [join]

/-- An instruction in the code of segments stands in the code of one of them. -/
theorem exists_of_join_eq
    {segments : List Segment} {pre post : List Instruction} {i : Instruction}
    (h : join segments = pre ++ i :: post) :
  ∃ front s back inner inner', segments = front ++ s :: back
    ∧ s.instructions = inner ++ i :: inner' ∧ pre = join front ++ inner
    ∧ post = inner' ++ join back
  := by
  induction segments generalizing pre with
  | nil => simp at h
  | cons s segments ih =>
      rw [join_cons] at h
      obtain ⟨inner', hs⟩ | ⟨pre, rfl, hrest⟩ := append_eq_append_cons h
      · use [], s, segments, pre, inner', rfl, hs, rfl
        rw [hs, List.append_assoc, List.append_cancel_left_eq] at h
        apply (List.cons.inj h).2.symm
      · obtain ⟨front, s', back, inner, inner', rfl, hs', rfl, rfl⟩ := ih hrest
        use s :: front, s', back, inner, inner', rfl, hs'
        simp

end Segment

namespace Part

variable {x y : Part} {n k : Nat} {l : Label} {i : Instruction} {front back : List Segment}

/-- The code of a part is that of its segments. -/
theorem instructions_eq
    (x : Part) (n : Nat) :
  x.instructions n = Segment.join (x.segments n)
  := by
  cases x with
  | stmt s =>
      cases s with
      | act a => rfl
      | branch c b e => simp [instructions, segments, code, Segment.instructions, nextLabel,
          Stmt.run_code_branch]
      | loop c b => simp [instructions, segments, code, Segment.instructions, Stmt.run_code_loop]
      | block b => simp [instructions, segments, code, Segment.instructions, Stmt.code]
  | body b =>
      cases b with
      | nil => rfl
      | cons s b => simp [instructions, segments, code, Segment.instructions, nextLabel,
          Stmt.run_bodyCode_cons]
  | otherwise e ifFalse chainEnd =>
      cases e with
      | absent => cases chainEnd <;> rfl
      | block b => simp [instructions, segments, code, Segment.instructions, Else.run_code_block]
      | branch c b e => simp [instructions, segments, code, Segment.instructions, nextLabel,
          Else.run_code_branch]

/-- The size of what a part lowers. -/
noncomputable def size : Part → Nat
  | .stmt s => sizeOf s
  | .body b => sizeOf b
  | .otherwise e _ _ => sizeOf e

/-- The parts whose code is put together are smaller. -/
theorem size_lt
    (h : .part y k ∈ x.segments n) :
  y.size < x.size
  := by
  cases x with
  | stmt s =>
      cases s <;> simp only [segments, List.mem_cons, reduceCtorEq, Segment.part.injEq,
        List.not_mem_nil, or_false, false_or] at h <;> grind [size]
  | body b =>
      cases b <;> simp only [segments, List.mem_cons, Segment.part.injEq, List.not_mem_nil,
        or_false] at h
      grind [size]
  | otherwise e ifFalse chainEnd =>
      cases e <;> simp only [segments, List.mem_cons, List.mem_map, reduceCtorEq,
        Segment.part.injEq, List.not_mem_nil, and_false, exists_false, or_false, false_or] at h <;>
        grind [size]

/-! ### Labels -/

/-- Labels are numbered upwards, and a part places exactly the labels which it takes or is given. -/
theorem mem_placed_iff
    (x : Part) (n : Nat) (l : Label) :
  n ≤ x.nextLabel n ∧ (l ∈ placed (x.instructions n) ↔ l ∈ x.given ∨ x.Takes n l)
  := by
  have hpos : ∀ (p : Prop) [Decidable p], 0 < (if p then 1 else 0) ↔ p := by
    intro p _
    split_ifs <;> simp_all
  rw [← List.count_pos_iff]
  cases x with
  | stmt s =>
      obtain ⟨hle, hcount⟩ := Stmt.count_placed_code s n l
      use hle
      rw [instructions, code, hcount, Label.taken, hpos]
      simp [given, Takes, nextLabel, code]
  | body b =>
      obtain ⟨hle, hcount⟩ := Stmt.count_placed_bodyCode b n l
      use hle
      rw [instructions, code, hcount, Label.taken, hpos]
      simp [given, Takes, nextLabel, code]
  | otherwise e ifFalse chainEnd =>
      obtain ⟨hle, hcount⟩ := Else.count_placed_code e ifFalse chainEnd n l
      use hle
      rw [instructions, code, hcount, Nat.add_pos_iff_pos_or_pos, Nat.add_pos_iff_pos_or_pos,
        Label.taken, hpos, hpos, hpos]
      simp [given, Takes, nextLabel, code, eq_comm]

theorem le_nextLabel
    (x : Part) (n : Nat) :
  n ≤ x.nextLabel n
  := (x.mem_placed_iff n default).1

/-- A part names only labels which it takes or is given. -/
theorem given_or_takes
    (h : l ∈ targets (x.instructions n)) :
  l ∈ x.given ∨ x.Takes n l
  := by
  rw [← (x.mem_placed_iff n l).2]
  cases x with
  | stmt s => apply (Stmt.lowered_code s n).targets_subset h
  | body b => apply (Stmt.lowered_bodyCode b n).targets_subset h
  | otherwise e ifFalse chainEnd =>
      obtain ⟨_, -, hlowered⟩ := Else.lowered_code e ifFalse chainEnd n
      apply hlowered.targets_subset.1 h

/-- The labels which a part is given were taken before those which it takes from `n` on. -/
def Given (x : Part) (n : Nat) : Prop :=
  ∀ l ∈ x.given, l.number < n

end Part

/-- The parts among the segments take the labels from the first number to the second, one part after
the other.  All other labels named in the segments have numbers smaller than `m`. -/
inductive Ledger (m : Nat) : Nat → List Segment → Nat → Prop where
  | nil (n : Nat) : Ledger m n [] n
  | own {n n' : Nat} {i : Instruction} {segments : List Segment}
      (hi : ∀ l ∈ i.targets, l.number < m) (h : Ledger m n segments n') :
      Ledger m n (.own i :: segments) n'
  | part {n n' : Nat} {x : Part} {segments : List Segment} (hx : x.Given m)
      (h : Ledger m (x.nextLabel n) segments n') : Ledger m n (.part x n :: segments) n'

namespace Ledger

variable {m n n' k : Nat} {segments front back : List Segment} {x : Part} {l : Label}

theorem le
    (h : Ledger m n segments n') :
  n ≤ n'
  := by
  induction h with
  | nil n => apply Nat.le_refl
  | own _ _ ih => apply ih
  | @part n _ x _ _ _ ih => apply Nat.le_trans (x.le_nextLabel n) ih

/-- What is named is taken by a part, or taken before. -/
theorem lt_of_mem_targets
    (h : Ledger m n segments n') (hl : l ∈ targets (Segment.join segments)) :
  l.number < m ∨ (n ≤ l.number ∧ l.number < n')
  := by
  induction h with
  | nil n => contradiction
  | own hi _ ih =>
      rw [Segment.join_cons, targets_append, List.mem_append] at hl
      obtain hl | hl := hl
      · left
        apply hi l
        simpa [Segment.instructions] using hl
      · apply ih hl
  | @part n n' x _ hx h ih =>
      rw [Segment.join_cons, targets_append, List.mem_append] at hl
      have hle := x.le_nextLabel n
      have hle' := h.le
      obtain hl | hl := hl
      · obtain hgiven | ⟨hge, hlt⟩ := Part.given_or_takes hl
        · left
          apply hx l hgiven
        · right
          omega
      · obtain hl | ⟨hge, hlt⟩ := ih hl
        · left
          apply hl
        · right
          omega

/-- Segments are divided into those before a number and those behind it. -/
theorem exists_of_append
    (h : Ledger m n (front ++ back) n') :
  ∃ k, Ledger m n front k ∧ Ledger m k back n'
  := by
  induction front generalizing n with
  | nil => exact ⟨n, nil n, h⟩
  | cons s front ih =>
      cases h with
      | own hi h =>
          obtain ⟨k, hfront, hback⟩ := ih h
          exact ⟨k, own hi hfront, hback⟩
      | part hx h =>
          obtain ⟨k, hfront, hback⟩ := ih h
          exact ⟨k, part hx hfront, hback⟩

/-- A part among the segments is given labels taken before, and nothing around it names a label
which it takes. -/
theorem part_apart
    (h : Ledger m n (front ++ .part x k :: back) n') (hm : m ≤ n) :
  x.Given k ∧ n ≤ k ∧ x.nextLabel k ≤ n'
    ∧ ∀ l, x.Takes k l →
      l ∉ targets (Segment.join front) ∧ l ∉ targets (Segment.join back)
  := by
  obtain ⟨k', hfront, hback⟩ := h.exists_of_append
  cases hback with
  | part hx hback =>
      have hle := hfront.le
      have hle' := hback.le
      refine ⟨?_, hle, hle', ?_⟩
      · intro l hl
        have hlt := hx l hl
        omega
      · rintro l ⟨hge, hlt⟩
        constructor
        · intro hl
          have hl' := hfront.lt_of_mem_targets hl
          omega
        · intro hl
          have hl' := hback.lt_of_mem_targets hl
          omega

end Ledger

namespace Part

variable {x y : Part} {n k : Nat} {l : Label} {front back : List Segment}

/-- The label at which the arms of a chain end is taken before what follows. -/
theorem chainEnd_lt
    {chainEnd : Option Label} (h : ∀ l ∈ chainEnd, l.number < n) :
  n ≤ ((chainEnd.getDM Label.fresh : StateM Nat Label).run n).2
    ∧ ((chainEnd.getDM Label.fresh : StateM Nat Label).run n).1.number
      < ((chainEnd.getDM Label.fresh : StateM Nat Label).run n).2
  := by
  cases chainEnd with
  | none => exact ⟨Nat.le_succ n, Nat.lt_succ_self n⟩
  | some stop => exact ⟨Nat.le_refl n, h stop rfl⟩

/-- The segments of a part take labels one after the other. -/
theorem exists_ledger
    (h : x.Given n) :
  ∃ m, n ≤ m ∧ Ledger m m (x.segments n) (x.nextLabel n)
  := by
  have hplace : ∀ {m : Nat} {l : Label}, ∀ l' ∈ (Instruction.place l).targets, l'.number < m :=
    fun _ hl' => absurd hl' List.not_mem_nil
  cases x with
  | stmt s =>
      cases s with
      | act a =>
          use n, Nat.le_refl n
          apply Ledger.own (by simp [Instruction.targets]) (Ledger.nil n)
      | branch c b e =>
          use n + 2, by omega
          apply Ledger.own (by simp [Instruction.targets])
          apply Ledger.own hplace
          apply Ledger.part (by simp [Given, given])
          apply Ledger.part (by simp [Given, given])
          apply Ledger.nil
      | loop c b =>
          use n + 3, by omega
          apply Ledger.own hplace
          apply Ledger.own (by simp [Instruction.targets])
          apply Ledger.own hplace
          apply Ledger.part (by simp [Given, given])
          apply Ledger.own (by simp [Instruction.targets])
          apply Ledger.own hplace
          apply Ledger.nil
      | block b =>
          use n, Nat.le_refl n
          apply Ledger.part (by simp [Given, given]) (Ledger.nil _)
  | body b =>
      use n, Nat.le_refl n
      cases b with
      | nil => apply Ledger.nil
      | cons s b =>
          apply Ledger.part (by simp [Given, given])
          apply Ledger.part (by simp [Given, given])
          apply Ledger.nil
  | otherwise e ifFalse chainEnd =>
      simp only [Given, given, List.mem_cons, Option.mem_toList, forall_eq_or_imp] at h
      obtain ⟨hle, hlt⟩ := chainEnd_lt h.2
      cases e with
      | absent =>
          use n, Nat.le_refl n
          apply Ledger.own hplace
          cases chainEnd with
          | none => apply Ledger.nil
          | some stop => apply Ledger.own hplace (Ledger.nil n)
      | block b =>
          use ((chainEnd.getDM Label.fresh : StateM Nat Label).run n).2, hle
          apply Ledger.own (by simpa [Instruction.targets] using hlt)
          apply Ledger.own hplace
          apply Ledger.part (by simp [Given, given])
          apply Ledger.own hplace
          apply Ledger.nil
      | branch c b e =>
          use ((chainEnd.getDM Label.fresh : StateM Nat Label).run n).2 + 2, by omega
          apply Ledger.own (by simp [Instruction.targets]; omega)
          apply Ledger.own hplace
          apply Ledger.own (by simp [Instruction.targets])
          apply Ledger.own hplace
          apply Ledger.part (by simp [Given, given])
          apply Ledger.part (by simp [Given, given]; omega)
          apply Ledger.nil

/-- A smaller part takes some of the labels which a part takes, is given labels taken before, and
nothing around it names a label which it takes. -/
theorem Given.part_apart
    (h : x.Given n) (hx : x.segments n = front ++ .part y k :: back) :
  y.Given k ∧ ∀ l, y.Takes k l →
    x.Takes n l ∧ l ∉ targets (Segment.join front) ∧ l ∉ targets (Segment.join back)
  := by
  obtain ⟨m, hm, hledger⟩ := exists_ledger h
  rw [hx] at hledger
  obtain ⟨hgiven, hle, hle', hapart⟩ := hledger.part_apart (Nat.le_refl m)
  use hgiven
  rintro l ⟨hge, hlt⟩
  constructor
  · constructor <;> omega
  · apply hapart l ⟨hge, hlt⟩

end Part

end MethodFlow
