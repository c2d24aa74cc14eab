import MethodFlow.Proofs.LinearCode.Parts

/-!
# Where the code of a part stands

`Method.Writes` says where in the code of a method the code of a part stands.  The labels which a
part takes are named nowhere else (`Method.Writes.not_mem_targets`), so the only way into a round of
a loop is the branch of the loop (`Method.Writes.enters_loop`), and the only jumps which go back are
those at the ends of loops (`Method.exists_loop_of_back`).
-/

namespace MethodFlow

open LinearCode

namespace Part

variable {x : Part} {n : Nat} {l : Label} {front back : List Segment}

/-- Jumps go ahead within the segments if every label which an instruction of the part itself names
is placed behind the instruction. -/
def Ahead : List Segment → Prop
  | [] => True
  | .own i :: segments => (∀ l ∈ i.targets, l ∈ placed (Segment.join segments)) ∧ Ahead segments
  | .part _ _ :: segments => Ahead segments

/-- Where jumps go ahead, an instruction of the part itself does. -/
theorem Ahead.mem_placed
    {i : Instruction} (h : Ahead (front ++ .own i :: back)) (hl : l ∈ i.targets) :
  l ∈ placed (Segment.join back)
  := by
  induction front with
  | nil => apply h.1 l hl
  | cons s front ih =>
      cases s with
      | own _ => apply ih h.2
      | part _ _ => apply ih h

/-- A label is placed by the code behind the body of a branch if the code is given the label. -/
theorem mem_placed_of_given
    (hl : l ∈ x.given) (n : Nat) :
  l ∈ placed (x.instructions n)
  := by
  apply (x.mem_placed_iff n l).2.mpr
  left
  apply hl

/-- An instruction which a part itself adds names labels placed behind it, unless it is the jump at
the end of a loop. -/
theorem ahead_or_loop
    (x : Part) (n : Nat) :
  Ahead (x.segments n) ∨ ∃ c b, x = .stmt (.loop c b)
  := by
  cases x with
  | stmt s =>
      cases s with
      | act a => simp [segments, Ahead, Instruction.targets]
      | branch c b e =>
          have he := mem_placed_of_given (x := otherwise e ⟨n + 1⟩ none) (l := ⟨n + 1⟩)
            (by simp [given]) (nextLabel (.body b) (n + 2))
          simp [segments, Ahead, Instruction.targets, Instruction.placed, Segment.instructions, he]
      | loop c b =>
          right
          exact ⟨c, b, rfl⟩
      | block b => simp [segments, Ahead]
  | body b => cases b <;> simp [segments, Ahead]
  | otherwise e ifFalse chainEnd =>
      left
      cases e with
      | absent => cases chainEnd <;> simp [segments, Ahead, Instruction.targets]
      | block b => simp [segments, Ahead, Instruction.targets, Instruction.placed,
          Segment.instructions]
      | branch c b e =>
          have he : ∀ {stop : Label × Nat} {k : Nat}, ∀ l ∈ [⟨stop.2 + 1⟩, stop.1],
              l ∈ placed (instructions (.otherwise e ⟨stop.2 + 1⟩ (some stop.1)) k) := by
            intro stop k l hl
            apply mem_placed_of_given (by simpa [given] using hl)
          simp [segments, Ahead, Instruction.targets, Instruction.placed, Segment.instructions, he]

/-! ### Loops -/

/-- The code of a round of a loop, from its body to the jump back. -/
def round (b : List Stmt) (n : Nat) : List Instruction :=
  .place ⟨n + 1⟩ :: ((body b).instructions (n + 3) ++ [.jump ⟨n⟩])

theorem instructions_loop
    (c : Expr) (b : List Stmt) (n : Nat) :
  (stmt (.loop c b)).instructions n
    = .place ⟨n⟩ :: .branch c ⟨n + 1⟩ ⟨n + 2⟩ :: round b n ++ [.place ⟨n + 2⟩]
  := by
  rw [instructions_eq]
  simp only [segments, Segment.join_cons, Segment.join_nil, Segment.instructions, round]
  simp

theorem mem_placed_round
    {b : List Stmt} :
  l ∈ placed (round b n) ↔ l = ⟨n + 1⟩ ∨ (body b).Takes (n + 3) l
  := by
  have hbody := ((body b).mem_placed_iff (n + 3) l).2
  simp only [given, List.not_mem_nil, false_or] at hbody
  simp [round, Instruction.placed, hbody]

/-- What a loop itself names is placed behind, or it is the head of the loop, which is named by the
jump at the end of the round. -/
theorem own_of_loop
    {c : Expr} {b : List Stmt} {i : Instruction}
    (h : segments (.stmt (.loop c b)) n = front ++ .own i :: back) (hl : l ∈ i.targets) :
  l ∈ placed (Segment.join back) ∨ l = ⟨n⟩ ∧ i = .jump ⟨n⟩
    ∧ Segment.join front ++ [i]
      = .place ⟨n⟩ :: .branch c ⟨n + 1⟩ ⟨n + 2⟩ :: round b n
  := by
  simp only [segments, List.cons_eq_append_iff, List.nil_eq_append_iff, List.cons.injEq,
    Segment.own.injEq, reduceCtorEq, false_and, and_false, or_false, exists_false,
    false_or] at h
  obtain ⟨rfl, rfl, rfl⟩ | ⟨_, rfl, ⟨rfl, rfl, rfl⟩ | ⟨_, rfl, ⟨rfl, rfl, rfl⟩ |
    ⟨_, rfl, _, rfl, ⟨rfl, rfl, rfl⟩ | ⟨_, rfl, rfl, rfl, rfl⟩⟩⟩⟩ := h
  · contradiction
  · left
    obtain rfl | rfl : l = ⟨n + 1⟩ ∨ l = ⟨n + 2⟩ := by simpa [Instruction.targets] using hl
    all_goals simp [Segment.instructions, Instruction.placed]
  · contradiction
  · right
    use List.mem_singleton.mp hl, rfl
    simp [Segment.instructions, round]
  · contradiction

end Part

/-- In the code of the method, between the code `before` and the code `after`, stands the code of
the part, whose labels are numbered from `n` on. -/
inductive Method.Writes (m : Method) :
    List Instruction → Part → Nat → List Instruction → Prop where
  | whole : Writes m [] (.body m.body) 0 []
  | part {before after : List Instruction} {x y : Part} {n k : Nat} {front back : List Segment}
      (h : Writes m before x n after) (hx : x.segments n = front ++ .part y k :: back) :
      Writes m (before ++ Segment.join front) y k (Segment.join back ++ after)

namespace Method.Writes

variable {m : Method} {before after : List Instruction} {x : Part} {n : Nat} {l : Label}

/-- The code of the method is what stands before a part, the part, and what stands after it. -/
theorem code_eq
    (h : m.Writes before x n after) :
  before ++ x.instructions n ++ after = m.code
  := by
  induction h with
  | whole => simp [Part.instructions, Part.code, Method.code]
  | part h hx ih =>
      rw [Part.instructions_eq, hx] at ih
      simpa [Segment.instructions] using ih

/-- A part is given labels taken before, and no label which it takes is named outside of it. -/
theorem not_mem_targets
    (h : m.Writes before x n after) :
  x.Given n ∧ ∀ l, x.Takes n l → l ∉ targets before ∧ l ∉ targets after
  := by
  induction h with
  | whole => simp [Part.Given, Part.given]
  | part h hx ih =>
      obtain ⟨hgiven, hapart⟩ := ih
      obtain ⟨hgiven', hapart'⟩ := hgiven.part_apart hx
      use hgiven'
      intro l hl
      obtain ⟨hx, hfront, hback⟩ := hapart' l hl
      obtain ⟨hbefore, hafter⟩ := hapart l hx
      simp [hfront, hback, hbefore, hafter]

/-- An instruction of a part belongs to the part itself or to a smaller one. -/
theorem exists_own
    {pre post : List Instruction} {i : Instruction} (h : m.Writes before x n after)
    (hx : x.instructions n = pre ++ i :: post) :
  ∃ outer y k rest front back, m.Writes outer y k rest
    ∧ y.segments k = front ++ .own i :: back
    ∧ before ++ pre = outer ++ Segment.join front ∧ post ++ after = Segment.join back ++ rest
  := by
  induction hsize : x.size using Nat.strongRecOn generalizing before after x n pre post with
  | ind size ih =>
      rw [Part.instructions_eq] at hx
      obtain ⟨front, s, back, inner, inner', hsegments, hs, rfl, rfl⟩ :=
        Segment.exists_of_join_eq hx
      cases s with
      | own i' =>
          obtain ⟨rfl, rfl, rfl⟩ : inner = [] ∧ i = i' ∧ inner' = [] := by
            simpa [Segment.instructions, List.singleton_eq_append_iff] using hs
          use before, x, n, after, front, back, h, hsegments
          simp
      | part y k =>
          have hmem : .part y k ∈ x.segments n := by simp [hsegments]
          have howner := ih _ (hsize ▸ Part.size_lt hmem) (h.part hsegments) hs rfl
          simpa using howner

/-! ### Loops -/

variable {c : Expr} {b : List Stmt} {pre post : List Instruction} {i : Instruction}

theorem code_eq_of_loop
    (h : m.Writes before (.stmt (.loop c b)) n after) :
  before ++ [.place ⟨n⟩] ++ .branch c ⟨n + 1⟩ ⟨n + 2⟩ :: (Part.round b n ++ .place ⟨n + 2⟩ :: after)
    = m.code
  := by
  rw [← h.code_eq, Part.instructions_loop]
  simp

/-- What names a label which is placed in a round of a loop is the branch of the loop, which names
the label at the beginning of the round, or stands in the round. -/
theorem enters_loop
    (h : m.Writes before (.stmt (.loop c b)) n after) (hcode : pre ++ i :: post = m.code)
    (hl : l ∈ i.targets) (hplaced : l ∈ placed (Part.round b n)) :
  (pre = before ++ [.place ⟨n⟩] ∧ i = .branch c ⟨n + 1⟩ ⟨n + 2⟩ ∧ l = ⟨n + 1⟩)
    ∨ ∃ inner inner', pre = before ++ [.place ⟨n⟩] ++ .branch c ⟨n + 1⟩ ⟨n + 2⟩ :: inner
      ∧ Part.round b n = inner ++ i :: inner'
  := by
  have htakes : (Part.stmt (.loop c b)).Takes n l ∧ l ≠ ⟨n + 2⟩ := by
    have hle := (Part.body b).le_nextLabel (n + 3)
    change (n ≤ l.number ∧ l.number < (Part.body b).nextLabel (n + 3)) ∧ l ≠ ⟨n + 2⟩
    obtain rfl | ⟨hge, hlt⟩ := Part.mem_placed_round.mp hplaced
    · simp
      omega
    · constructor
      · omega
      · rintro rfl
        simp at hge
  obtain ⟨hbefore, hafter⟩ := h.not_mem_targets.2 l htakes.1
  have hnot : ∀ {code : List Instruction}, i ∈ code → l ∈ targets code := by
    intro code hi
    apply List.mem_flatMap.mpr ⟨i, hi, hl⟩
  rw [← h.code_eq_of_loop] at hcode
  obtain ⟨rest, hhead⟩ | ⟨rest, rfl, hrest⟩ := append_eq_append_cons hcode.symm
  · have htargets : l ∈ targets (before ++ [.place ⟨n⟩]) := by
      apply hnot
      rw [hhead]
      simp
    simp [Instruction.targets, hbefore] at htargets
  · cases rest with
    | nil =>
        left
        obtain ⟨rfl, -⟩ := List.cons.inj hrest
        rw [List.append_nil]
        refine ⟨rfl, rfl, ?_⟩
        simpa [Instruction.targets, htakes.2] using hl
    | cons i' rest =>
        right
        obtain ⟨rfl, hinner⟩ := List.cons.inj hrest
        obtain ⟨inner', hround⟩ | ⟨rest, rfl, hend⟩ := append_eq_append_cons hinner
        · exact ⟨rest, inner', rfl, hround⟩
        · have htargets : l ∈ targets (.place ⟨n + 2⟩ :: after) := by
            apply hnot
            rw [hend]
            simp
          simp [Instruction.targets, hafter] at htargets

end Method.Writes

/-- A label which is named behind its place is named by the jump at the end of a loop, and placed at
the head of the loop. -/
theorem Method.exists_loop_of_back
    {m : Method} {pre post : List Instruction} {i : Instruction} {l : Label}
    (hcode : pre ++ i :: post = m.code) (hl : l ∈ i.targets) (hback : l ∈ placed pre) :
  ∃ before c b n after, m.Writes before (.stmt (.loop c b)) n after ∧ l = ⟨n⟩ ∧ i = .jump ⟨n⟩
    ∧ pre ++ [i] = before ++ [.place ⟨n⟩] ++ .branch c ⟨n + 1⟩ ⟨n + 2⟩ :: Part.round b n
  := by
  have hbehind : l ∉ placed post := by
    have hnodup := m.nodup_placed
    rw [← hcode, placed_append, placed_cons] at hnodup
    intro hpost
    apply (List.nodup_append.mp hnodup).2.2 l hback l _ rfl
    apply List.mem_append_right _ hpost
  obtain ⟨before, x, n, after, front, back, hx, hsegments, hpre, hpost⟩ :=
    Writes.whole.exists_own hcode.symm
  rw [List.nil_append] at hpre
  rw [List.append_nil] at hpost
  obtain hahead | ⟨c, b, rfl⟩ := x.ahead_or_loop n
  · apply absurd _ hbehind
    rw [hsegments] at hahead
    rw [hpost, placed_append]
    apply List.mem_append_left _ (hahead.mem_placed hl)
  · obtain hplaced | ⟨rfl, rfl, hfront⟩ := Part.own_of_loop hsegments hl
    · apply absurd _ hbehind
      rw [hpost, placed_append]
      apply List.mem_append_left _ hplaced
    · use before, c, b, n, after, hx, rfl, rfl
      rw [hpre, List.append_assoc, hfront]
      simp

end MethodFlow
