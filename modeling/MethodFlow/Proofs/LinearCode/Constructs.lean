import Mathlib.Data.List.Perm.Basic
import MethodFlow.Proofs.LinearCode.Lowered

/-!
# How many labels a method takes

Labels are taken for three constructs: two for every condition of a branch, one for the end of every
chain of conditions which goes on behind its first body, and three for every loop.  The labels of a
method are numbered from `0` without a gap, and its code places each of them once
(`Method.perm_placed`).
-/

namespace MethodFlow

open LinearCode

/-- What labels are taken for. -/
inductive Construct where
  /-- A condition of a branch, be it the first one of its chain or a later one. -/
  | arm
  /-- A chain of conditions whose first arm has an alternative. -/
  | chain
  /-- A loop. -/
  | loop
deriving DecidableEq

/-- How many labels constructs take. -/
def Construct.labels (cs : List Construct) : Nat :=
  2 * cs.count .arm + cs.count .chain + 3 * cs.count .loop

/-- The chain which a branch with the alternative begins, if there is an alternative. -/
def Else.chain : Else → List Construct
  | .absent => []
  | .block _ | .branch _ _ _ => [.chain]

mutual

/-- The constructs of a statement. -/
def Stmt.constructs : Stmt → List Construct
  | .act _ => []
  | .branch _ body otherwise =>
    .arm :: (otherwise.chain ++ Stmt.bodyConstructs body ++ otherwise.constructs)
  | .loop _ body => .loop :: Stmt.bodyConstructs body
  | .block body => Stmt.bodyConstructs body

/-- The constructs of a list of statements. -/
def Stmt.bodyConstructs : List Stmt → List Construct
  | [] => []
  | s :: body => s.constructs ++ Stmt.bodyConstructs body

/-- The constructs of what a branch runs when its condition fails.  The chain was counted where it
begins. -/
def Else.constructs : Else → List Construct
  | .absent => []
  | .block body => Stmt.bodyConstructs body
  | .branch _ body otherwise => .arm :: (Stmt.bodyConstructs body ++ otherwise.constructs)

end

/-- The constructs of a method. -/
def Method.constructs (m : Method) : List Construct :=
  Stmt.bodyConstructs m.body

namespace Construct

@[simp]
theorem labels_nil :
  labels [] = 0
  := rfl

@[simp]
theorem labels_chain :
  labels [.chain] = 1
  := rfl

@[simp]
theorem labels_append
    (cs cs' : List Construct) :
  labels (cs ++ cs') = labels cs + labels cs'
  := by
  simp only [labels, List.count_append]
  omega

@[simp]
theorem labels_arm
    (cs : List Construct) :
  labels (.arm :: cs) = 2 + labels cs
  := by
  simp [labels]
  omega

@[simp]
theorem labels_loop
    (cs : List Construct) :
  labels (.loop :: cs) = 3 + labels cs
  := by
  simp [labels]
  omega

end Construct

open Construct

theorem Label.chainEnd_snd
    (chainEnd : Option Label) (n : Nat) :
  ((chainEnd.getDM Label.fresh : StateM Nat Label).run n).2 = n + (if chainEnd = none then 1 else 0)
  := by
  cases chainEnd <;> rfl

mutual

/-- The code of a statement takes the labels of its constructs. -/
theorem Stmt.run_code_snd
    (s : Stmt) (n : Nat) :
  (s.code.run n).2 = n + labels s.constructs
  := by
  cases s with
  | act a => rfl
  | branch c body otherwise =>
      rw [Stmt.run_code_branch, Stmt.constructs, labels_arm, labels_append, labels_append]
      simp only
      rw [Else.run_code_snd, Stmt.run_bodyCode_snd, if_pos rfl]
      omega
  | loop c body =>
      rw [Stmt.run_code_loop, Stmt.constructs, labels_loop]
      simp only
      rw [Stmt.run_bodyCode_snd]
      omega
  | block body => apply Stmt.run_bodyCode_snd body n

/-- The code of a list of statements takes the labels of its constructs. -/
theorem Stmt.run_bodyCode_snd
    (body : List Stmt) (n : Nat) :
  ((Stmt.bodyCode body).run n).2 = n + labels (Stmt.bodyConstructs body)
  := by
  cases body with
  | nil => rfl
  | cons s body =>
      rw [Stmt.run_bodyCode_cons, Stmt.bodyConstructs, labels_append]
      simp only
      rw [Stmt.run_bodyCode_snd, Stmt.run_code_snd]
      omega

/-- The code behind the body of a branch takes the labels of its constructs, and one for the end of
the chain if the chain goes on and has no end yet. -/
theorem Else.run_code_snd
    (otherwise : Else) (ifFalse : Label) (chainEnd : Option Label) (n : Nat) :
  ((otherwise.code ifFalse chainEnd).run n).2
    = n + (if chainEnd = none then labels otherwise.chain else 0) + labels otherwise.constructs
  := by
  cases otherwise with
  | absent =>
      rw [Else.run_code_absent]
      simp [Else.chain, Else.constructs]
  | block body =>
      rw [Else.run_code_block, Else.chain, Else.constructs, labels_chain]
      simp only
      rw [Stmt.run_bodyCode_snd, Label.chainEnd_snd]
  | branch c body otherwise =>
      rw [Else.run_code_branch, Else.chain, Else.constructs, labels_arm, labels_append]
      simp only
      rw [Else.run_code_snd, Stmt.run_bodyCode_snd, Label.chainEnd_snd,
        if_neg (Option.some_ne_none _), labels_chain]
      omega

end

/-- The code of a method places each of the labels it takes once, and they are numbered without a
gap. -/
theorem Method.perm_placed
    (m : Method) :
  (placed m.code).Perm ((List.range (labels m.constructs)).map Label.mk)
  := by
  have hinjective : Function.Injective Label.mk := by
    intro i j h
    apply Label.mk.inj h
  rw [List.perm_ext_iff_of_nodup m.nodup_placed (List.nodup_range.map hinjective)]
  rintro ⟨i⟩
  have hcount : (placed m.code).count ⟨i⟩ = Label.taken ⟨i⟩ 0 (labels m.constructs) := by
    rw [Method.code, (Stmt.count_placed_bodyCode m.body 0 ⟨i⟩).2, Stmt.run_bodyCode_snd,
      Nat.zero_add]
    rfl
  rw [← List.count_pos_iff, hcount, Label.taken, List.mem_map_of_injective hinjective,
    List.mem_range]
  split_ifs <;> simp_all

end MethodFlow
