import Mathlib.Data.List.Nodup
import Mathlib.Logic.Function.Basic
import MethodFlow.Proofs.LinearCode.Lowered

/-!
# Linear code without labels

The address of a place counts the instructions before it which are not places.  When the labels of
linear code are replaced by their addresses and the places dropped, what remains are operations.
They can be read off the statements (`Stmt.operations`): whichever labels the code of a statement
uses, its operations are the same (`Stmt.operations_bodyCode`).
-/

namespace MethodFlow

/-- A step of linear code which jumps to addresses. -/
inductive Operation where
  | act (action : Action)
  | branch (condition : Expr) (ifTrue ifFalse : Nat)
  | jump (address : Nat)

/-- The addresses to which an operation may jump. -/
def Operation.targets : Operation → List Nat
  | .act _ => []
  | .branch _ t f => [t, f]
  | .jump p => [p]

/-- The operation of an instruction, by the addresses of its labels.  A place has none. -/
def Instruction.operation? (address : Label → Nat) : Instruction → Option Operation
  | .place _ => none
  | .act a => some (.act a)
  | .branch c t f => some (.branch c (address t) (address f))
  | .jump l => some (.jump (address l))

/-! ### The operations of statements -/

/-- The number of operations between the body of a branch and what is run otherwise: where there is
an alternative, a jump leads past it. -/
def Else.lead : Else → Nat
  | .absent => 0
  | .block _ | .branch _ _ _ => 1

mutual

/-- The operations of a statement whose code starts at the address `p`. -/
def Stmt.operations (p : Nat) : Stmt → List Operation
  | .act a => [.act a]
  | .branch c body otherwise =>
    let first := Stmt.bodyOperations (p + 1) body
    let second := otherwise.operations (p + 1 + first.length)
    .branch c (p + 1) (p + 1 + first.length + otherwise.lead) :: (first ++ second)
  | .loop c body =>
    let round := Stmt.bodyOperations (p + 1) body
    .branch c (p + 1) (p + 1 + round.length + 1) :: (round ++ [.jump p])
  | .block body => Stmt.bodyOperations p body

/-- The operations of a list of statements. -/
def Stmt.bodyOperations (p : Nat) : List Stmt → List Operation
  | [] => []
  | s :: body =>
    let first := s.operations p
    first ++ Stmt.bodyOperations (p + first.length) body

/-- The operations behind the body of a branch: past an alternative, a jump leads to its end. -/
def Else.operations (p : Nat) : Else → List Operation
  | .absent => []
  | .block body =>
    let second := Stmt.bodyOperations (p + 1) body
    .jump (p + 1 + second.length) :: second
  | .branch c body otherwise =>
    let first := Stmt.bodyOperations (p + 1 + 1) body
    let second := otherwise.operations (p + 1 + 1 + first.length)
    .jump (p + 1 + 1 + first.length + second.length) ::
      .branch c (p + 1 + 1) (p + 1 + 1 + first.length + otherwise.lead) :: (first ++ second)

end

namespace LinearCode

variable {address address' : Label → Nat} {p : Nat} {l : Label} {i : Instruction}
  {code code' : List Instruction}

/-- The operations of linear code, by the addresses of its labels. -/
def operations (address : Label → Nat) (code : List Instruction) : List Operation :=
  code.filterMap (Instruction.operation? address)

/-- Every label which the code places has the address of its place, where the code starts at the
address `p`. -/
def Located (address : Label → Nat) : Nat → List Instruction → Prop
  | _, [] => True
  | p, .place l :: code => address l = p ∧ Located address p code
  | p, _ :: code => Located address (p + 1) code

@[simp]
theorem operations_nil :
  operations address [] = []
  := rfl

@[simp]
theorem operations_place :
  operations address (.place l :: code) = operations address code
  := rfl

@[simp]
theorem operations_act
    {a : Action} :
  operations address (.act a :: code) = .act a :: operations address code
  := rfl

@[simp]
theorem operations_branch
    {c : Expr} {t f : Label} :
  operations address (.branch c t f :: code)
    = .branch c (address t) (address f) :: operations address code
  := rfl

@[simp]
theorem operations_jump :
  operations address (.jump l :: code) = .jump (address l) :: operations address code
  := rfl

@[simp]
theorem operations_append :
  operations address (code ++ code') = operations address code ++ operations address code'
  := List.filterMap_append

@[simp]
theorem located_nil :
  Located address p []
  := trivial

@[simp]
theorem located_place :
  Located address p (.place l :: code) ↔ address l = p ∧ Located address p code
  := Iff.rfl

@[simp]
theorem located_act
    {a : Action} :
  Located address p (.act a :: code) ↔ Located address (p + 1) code
  := Iff.rfl

@[simp]
theorem located_branch
    {c : Expr} {t f : Label} :
  Located address p (.branch c t f :: code) ↔ Located address (p + 1) code
  := Iff.rfl

@[simp]
theorem located_jump :
  Located address p (.jump l :: code) ↔ Located address (p + 1) code
  := Iff.rfl

@[simp]
theorem located_append :
  Located address p (code ++ code')
    ↔ Located address p code ∧ Located address (p + (operations address code).length) code'
  := by
  induction code generalizing p with
  | nil => simp
  | cons i code ih =>
      cases i <;> simp [ih, and_assoc, Nat.add_assoc, Nat.add_comm]

/-- Only the addresses of the labels which are placed matter. -/
theorem Located.congr
    (h : Located address p code) (heq : ∀ l ∈ placed code, address' l = address l) :
  Located address' p code
  := by
  induction code generalizing p with
  | nil => trivial
  | cons i code ih =>
      cases i with
      | place l =>
          have hl : address' l = address l := heq l List.mem_cons_self
          exact ⟨hl.trans h.1, ih h.2 fun l' hl' => heq l' (List.mem_cons_of_mem l hl')⟩
      | _ => exact ih h heq

/-- Code which places no label twice gives an address to each of its labels. -/
theorem exists_located
    (h : (placed code).Nodup) (p : Nat) :
  ∃ address, Located address p code
  := by
  induction code generalizing p with
  | nil => exact ⟨fun _ => 0, trivial⟩
  | cons i code ih =>
      cases i with
      | place l =>
          obtain ⟨hl, hnodup⟩ := List.nodup_cons.mp h
          obtain ⟨address, haddress⟩ := ih hnodup p
          use Function.update address l p
          constructor
          · apply Function.update_self
          · apply haddress.congr
            intro l' hl'
            apply Function.update_of_ne
            rintro rfl
            apply hl hl'
      | _ => exact ih h (p + 1)

/-- A label is placed at the address where the code starts or later. -/
theorem Located.le_address
    (h : Located address p code) (hl : l ∈ placed code) :
  p ≤ address l
  := by
  induction code generalizing p with
  | nil => contradiction
  | cons i code ih =>
      cases i with
      | place l' =>
          obtain ⟨hl', hcode⟩ := h
          obtain rfl | hl := List.mem_cons.mp hl
          · apply Nat.le_of_eq hl'.symm
          · apply ih hcode hl
      | _ => exact Nat.le_of_succ_le (ih h hl)

/-- The operations jump to the addresses of the labels to which the code jumps. -/
theorem targets_operations
    (address : Label → Nat) (code : List Instruction) :
  (operations address code).flatMap Operation.targets = (targets code).map address
  := by
  induction code with
  | nil => rfl
  | cons i code ih =>
      rw [targets_cons, List.map_append, ← ih]
      cases i <;> rfl

/-! ### Places in a row -/

@[simp]
theorem placed_places
    (labels : List Label) :
  placed (labels.map .place) = labels
  := by
  induction labels with
  | nil => rfl
  | cons l labels ih =>
      rw [List.map_cons, placed_cons, ih, Instruction.placed, List.singleton_append]

@[simp]
theorem operations_places
    (address : Label → Nat) (labels : List Label) :
  operations address (labels.map .place) = []
  := by
  induction labels with
  | nil => rfl
  | cons l labels ih => rw [List.map_cons, operations_place, ih]

@[simp]
theorem located_places
    {labels : List Label} :
  Located address p (labels.map .place) ↔ ∀ l ∈ labels, address l = p
  := by
  induction labels with
  | nil => simp
  | cons l labels ih => rw [List.map_cons, located_place, ih, List.forall_mem_cons]

theorem exists_operation
    (address : Label → Nat) (hi : i.placed = []) :
  ∃ op, i.operation? address = some op
  := by
  cases i with
  | place l => contradiction
  | _ => exact ⟨_, rfl⟩

theorem located_cons
    (hi : i.placed = []) :
  Located address p (i :: code) ↔ Located address (p + 1) code
  := by
  cases i with
  | place l => contradiction
  | _ => rfl

/-- Code starts with the places of some labels, behind which an instruction follows which is no
place, if any follows. -/
theorem exists_places
    (code : List Instruction) :
  ∃ (group : List Label) (rest : List Instruction), code = group.map .place ++ rest
    ∧ (rest = [] ∨ ∃ i rest', rest = i :: rest' ∧ i.placed = [])
  := by
  induction code with
  | nil => exact ⟨[], [], rfl, Or.inl rfl⟩
  | cons i code ih =>
      cases i with
      | place l =>
          obtain ⟨group, rest, rfl, hrest⟩ := ih
          exact ⟨l :: group, rest, rfl, hrest⟩
      | _ => exact ⟨[], _, rfl, Or.inr ⟨_, _, rfl, rfl⟩⟩

/-- The code starts at the address `p` and places the labels which are at that address or a later
one.  It jumps to no other labels than `labels`, and its operations are `ops`. -/
structure Remains (address : Label → Nat) (labels : List Label) (p : Nat) (code : List Instruction)
    (ops : List Operation) : Prop where
  located : Located address p code
  reads : operations address code = ops
  places : ∀ l, l ∈ placed code ↔ l ∈ labels ∧ p ≤ address l
  jumps : targets code ⊆ labels

/-- Code starts with the places of the labels which are at its address.  Its first operation
follows, if it has operations. -/
theorem Remains.cases
    {labels : List Label} {ops : List Operation} (h : Remains address labels p code ops) :
  ∃ (group : List Label) (rest : List Instruction), code = group.map .place ++ rest
    ∧ (∀ l, l ∈ group ↔ l ∈ labels ∧ address l = p)
    ∧ match ops with
      | [] => rest = []
      | op :: ops => ∃ i rest', rest = i :: rest' ∧ i.operation? address = some op
          ∧ i.targets ⊆ labels ∧ Remains address labels (p + 1) rest' ops
  := by
  obtain ⟨group, rest, rfl, hrest⟩ := exists_places code
  obtain ⟨hlocated, hreads, hplaces, hjumps⟩ := h
  rw [located_append, operations_places, located_places] at hlocated
  obtain ⟨hgroup, hlocated⟩ := hlocated
  rw [operations_append, operations_places, List.nil_append] at hreads
  simp only [placed_append, placed_places, List.mem_append] at hplaces
  -- Whatever is placed behind the group is at a later address.
  have hmem : (∀ l ∈ placed rest, p < address l) →
      (∀ l, l ∈ group ↔ l ∈ labels ∧ address l = p)
        ∧ ∀ l, l ∈ placed rest ↔ l ∈ labels ∧ p + 1 ≤ address l := by
    intro hlater
    constructor
    · intro l
      have := hplaces l
      have := hgroup l
      have := hlater l
      grind
    · intro l
      have := hplaces l
      have := hgroup l
      have := hlater l
      grind
  refine ⟨group, rest, rfl, ?_⟩
  obtain rfl | ⟨i, rest, rfl, hi⟩ := hrest
  · obtain ⟨hgroup, -⟩ := hmem (fun l hl => absurd hl List.not_mem_nil)
    obtain rfl := hreads
    exact ⟨hgroup, rfl⟩
  · rw [located_cons hi] at hlocated
    have hplaced : placed (i :: rest) = placed rest := by rw [placed_cons, hi, List.nil_append]
    rw [hplaced] at hmem
    obtain ⟨hgroup, hplaces⟩ := hmem fun l hl => hlocated.le_address hl
    obtain ⟨op, hop⟩ := exists_operation address hi
    rw [LinearCode.operations, List.filterMap_cons, hop] at hreads
    obtain rfl := hreads
    rw [targets_append, targets_cons] at hjumps
    obtain ⟨-, hjumps⟩ := List.append_subset.mp hjumps
    obtain ⟨hi, hjumps⟩ := List.append_subset.mp hjumps
    exact ⟨hgroup, i, rest, rfl, hop, hi, hlocated, rfl, hplaces, hjumps⟩

end LinearCode

open LinearCode

/-! ### Lowered code -/

mutual

/-- Code of a statement has the operations of the statement. -/
theorem Lowered.operations_eq
    {address : Label → Nat} {p : Nat} {code : List Instruction}
    {s : Stmt} (h : Lowered s code) (hlocated : Located address p code) :
  operations address code = s.operations p
  := by
  cases h with
  | act a => rfl
  | branch hfirst hsecond =>
      simp only [located_branch, located_place, located_append] at hlocated
      obtain ⟨htrue, hlocated₁, hlocated₂⟩ := hlocated
      have hbody := hfirst.operations_eq hlocated₁
      rw [hbody] at hlocated₂
      obtain ⟨hotherwise, hfalse, -⟩ := hsecond.operations_eq hlocated₂
      simp only [operations_branch, operations_place, operations_append, Stmt.operations, htrue,
        hfalse, hbody, hotherwise]
  | loop h =>
      simp only [located_branch, located_place, located_append, located_jump] at hlocated
      obtain ⟨hheader, hinside, hlocated, hexit, -⟩ := hlocated
      have hbody := h.operations_eq hlocated
      rw [hbody] at hexit
      simp only [operations_branch, operations_place, operations_append, operations_jump,
        operations_nil, Stmt.operations, hheader, hinside, hexit, hbody]
  | block h => apply h.operations_eq hlocated

/-- Code of a list of statements has the operations of the statements. -/
theorem LoweredBody.operations_eq
    {address : Label → Nat} {p : Nat} {code : List Instruction}
    {body : List Stmt} (h : LoweredBody body code) (hlocated : Located address p code) :
  operations address code = Stmt.bodyOperations p body
  := by
  cases h with
  | nil => rfl
  | cons hfirst hsecond =>
      obtain ⟨hlocated₁, hlocated₂⟩ := located_append.mp hlocated
      have hstatement := hfirst.operations_eq hlocated₁
      rw [hstatement] at hlocated₂
      have hbody := hsecond.operations_eq hlocated₂
      simp only [operations_append, Stmt.bodyOperations, hstatement, hbody]

/-- Code behind the body of a branch has the operations of the alternative, which begins at the one
label and ends at the other. -/
theorem LoweredElse.operations_eq
    {address : Label → Nat} {p : Nat} {code : List Instruction}
    {ifFalse : Label} {stop : Option Label} {otherwise : Else}
    (h : LoweredElse ifFalse stop otherwise code) (hlocated : Located address p code) :
  operations address code = otherwise.operations p ∧ address ifFalse = p + otherwise.lead
    ∧ ∀ l, stop = some l → address l = p + (otherwise.operations p).length
  := by
  cases h with
  | absent =>
      cases stop <;> simp_all [Else.operations, Else.lead]
  | block h =>
      simp only [located_jump, located_place, located_append] at hlocated
      obtain ⟨hfalse, hlocated, hstop, -⟩ := hlocated
      have hbody := h.operations_eq hlocated
      rw [hbody] at hstop
      refine ⟨?_, hfalse, ?_⟩
      · simp only [operations_jump, operations_place, operations_append, operations_nil,
          List.append_nil, Else.operations, hbody, hstop]
      · rintro _ ⟨rfl⟩
        rw [hstop, Else.operations, List.length_cons]
        omega
  | branch hsecond hrest =>
      simp only [located_jump, located_place, located_branch, located_append] at hlocated
      obtain ⟨hfalse, htrue, hlocated₁, hlocated₂⟩ := hlocated
      have hbody := hsecond.operations_eq hlocated₁
      rw [hbody] at hlocated₂
      obtain ⟨hotherwise, hfalse', hstop⟩ := hrest.operations_eq hlocated₂
      have hstop := hstop _ rfl
      refine ⟨?_, hfalse, ?_⟩
      · simp only [operations_jump, operations_place, operations_branch, operations_append,
          Else.operations, hbody, hotherwise, htrue, hfalse', hstop]
      · rintro _ ⟨rfl⟩
        simp only [hstop, Else.operations, List.length_cons, List.length_append]
        omega

end

/-- The code of a list of statements has the operations of the statements, whatever labels it
takes. -/
theorem Stmt.operations_bodyCode
    {address : Label → Nat} {p : Nat} {body : List Stmt} {n : Nat}
    (h : Located address p ((Stmt.bodyCode body).run n).1) :
  LinearCode.operations address ((Stmt.bodyCode body).run n).1 = Stmt.bodyOperations p body
  := (Stmt.lowered_bodyCode body n).operations_eq h

/-! ### Labels which are placed are jumped to -/

mutual

/-- The code of a statement jumps to every label which it places. -/
theorem Stmt.placed_subset_code
    (s : Stmt) (n : Nat) :
  placed (s.code.run n).1 ⊆ targets (s.code.run n).1
  := by
  cases s with
  | act a => apply List.nil_subset
  | branch c body otherwise =>
      have hbody := Stmt.placed_subset_bodyCode body (n + 2)
      have hotherwise := Else.placed_subset_code otherwise ⟨n + 1⟩ none
        ((Stmt.bodyCode body).run (n + 2)).2
      simp only [Stmt.run_code_branch, placed_cons, placed_append, targets_cons, targets_append,
        Instruction.placed, Instruction.targets]
      grind
  | loop c body =>
      have hbody := Stmt.placed_subset_bodyCode body (n + 3)
      simp only [Stmt.run_code_loop, placed_cons, placed_append, placed_nil, targets_cons,
        targets_append, targets_nil, Instruction.placed, Instruction.targets]
      grind
  | block body => apply Stmt.placed_subset_bodyCode body n

/-- The code of a list of statements jumps to every label which it places. -/
theorem Stmt.placed_subset_bodyCode
    (body : List Stmt) (n : Nat) :
  placed ((Stmt.bodyCode body).run n).1 ⊆ targets ((Stmt.bodyCode body).run n).1
  := by
  cases body with
  | nil => apply List.nil_subset
  | cons s body =>
      have hfirst := Stmt.placed_subset_code s n
      have hsecond := Stmt.placed_subset_bodyCode body (s.code.run n).2
      simp only [Stmt.run_bodyCode_cons, placed_append, targets_append]
      grind

/-- The code behind the body of a branch jumps to every label which it places, other than those it
is given. -/
theorem Else.placed_subset_code
    (otherwise : Else) (ifFalse : Label) (chainEnd : Option Label) (n : Nat) :
  placed ((otherwise.code ifFalse chainEnd).run n).1
    ⊆ ifFalse :: chainEnd.toList ++ targets ((otherwise.code ifFalse chainEnd).run n).1
  := by
  cases otherwise with
  | absent =>
      rw [Else.run_code_absent, placed_cons, placed_places]
      apply List.subset_append_left
  | block body =>
      have hbody := Stmt.placed_subset_bodyCode body
        ((chainEnd.getDM Label.fresh : StateM Nat Label).run n).2
      simp only [Else.run_code_block, placed_cons, placed_append, placed_nil, targets_cons,
        targets_append, targets_nil, Instruction.placed, Instruction.targets]
      grind
  | branch c body otherwise =>
      simp only [Else.run_code_branch]
      generalize (chainEnd.getDM Label.fresh : StateM Nat Label).run n = stop
      have hbody := Stmt.placed_subset_bodyCode body (stop.2 + 2)
      have hotherwise := Else.placed_subset_code otherwise ⟨stop.2 + 1⟩ (some stop.1)
        ((Stmt.bodyCode body).run (stop.2 + 2)).2
      simp only [placed_cons, placed_append, targets_cons, targets_append, Instruction.placed,
        Instruction.targets]
      grind

end

end MethodFlow
