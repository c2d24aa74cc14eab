import MethodFlow.Proofs.Graph.Run
import MethodFlow.Proofs.LinearCode.Lowered

/-!
# Reading a method body from front to back

`Stmt.tokens` lists what is met when a statement is read from front to back: simple statements,
conditions, and the borders of the arms of branches and of loops.  Lowering keeps the order
(`Method.thinned_code`): every simple statement and every condition is met once when the linear code
is read, though a border may be met more often there.  `Divided` says that tokens are cut into parts
between which there may be borders, while there are none inside of a part.
-/

namespace MethodFlow

open LinearCode

/-- What is met when a method body is read. -/
inductive Token where
  /-- A simple statement or a condition. -/
  | item (o : Observation)
  /-- The beginning or the end of an arm of a branch, of a loop, or of the body of a loop. -/
  | border

/-- The simple statement or the condition which is met. -/
def Token.item? : Token → Option Observation
  | .item o => some o
  | .border => none

mutual

/-- What is met in a statement.  The condition of a branch comes before its body and its
alternative, and the condition of a loop before its body. -/
def Stmt.tokens : Stmt → List Token
  | .act a => [.item (.act a)]
  | .branch c body otherwise =>
    .item (.test c) :: .border :: Stmt.bodyTokens body ++ .border :: otherwise.tokens
  | .loop c body => .border :: .item (.test c) :: .border :: Stmt.bodyTokens body ++ [.border]
  | .block body => Stmt.bodyTokens body

/-- What is met in a list of statements. -/
def Stmt.bodyTokens : List Stmt → List Token
  | [] => []
  | s :: body => s.tokens ++ Stmt.bodyTokens body

/-- What is met behind the body of a branch. -/
def Else.tokens : Else → List Token
  | .absent => []
  | .block body => Stmt.bodyTokens body ++ [.border]
  | .branch c body otherwise =>
    .item (.test c) :: .border :: Stmt.bodyTokens body ++ .border :: otherwise.tokens

end

/-- What is met in the body of a method. -/
def Method.tokens (m : Method) : List Token :=
  Stmt.bodyTokens m.body

/-- What is met in an instruction. -/
def Instruction.token : Instruction → Token
  | .act a => .item (.act a)
  | .branch c _ _ => .item (.test c)
  | .place _ | .jump _ => .border

variable {ts ts' us us' : List Token} {os : List Observation}
  {parts parts' before after : List (List Observation)}

/-! ### Borders which are left out -/

/-- The tokens `ts` are the tokens `ts'` but for some borders which are left out. -/
inductive Thinned : List Token → List Token → Prop where
  | nil : Thinned [] []
  | cons {ts ts' : List Token} (t : Token) (h : Thinned ts ts') : Thinned (t :: ts) (t :: ts')
  | leave {ts ts' : List Token} (h : Thinned ts ts') : Thinned ts (.border :: ts')

theorem Thinned.append
    (h : Thinned ts ts') (h' : Thinned us us') :
  Thinned (ts ++ us) (ts' ++ us')
  := by
  induction h with
  | nil => apply h'
  | cons t _ ih => apply ih.cons t
  | leave _ ih => apply ih.leave

mutual

/-- The code of a statement is read as the statement is. -/
theorem Lowered.thinned
    {s : Stmt} {code : List Instruction} (h : Lowered s code) :
  Thinned s.tokens (code.map Instruction.token)
  := by
  cases h with
  | act a => apply Thinned.cons _ Thinned.nil
  | branch hfirst hsecond =>
      rw [List.map_cons, List.map_cons, List.map_append]
      apply Thinned.cons
      apply Thinned.cons
      apply hfirst.thinned.append hsecond.thinned
  | loop h =>
      rw [List.map_cons, List.map_cons, List.map_cons, List.map_append]
      apply Thinned.cons
      apply Thinned.cons
      apply Thinned.cons
      apply h.thinned.append
      -- the jump back to the condition and the end of the loop are one border of the text
      apply Thinned.leave
      apply Thinned.cons _ Thinned.nil
  | block h => apply h.thinned

theorem LoweredBody.thinned
    {body : List Stmt} {code : List Instruction} (h : LoweredBody body code) :
  Thinned (Stmt.bodyTokens body) (code.map Instruction.token)
  := by
  cases h with
  | nil => apply Thinned.nil
  | cons hfirst hsecond =>
      rw [List.map_append]
      apply hfirst.thinned.append hsecond.thinned

/-- The code behind the body of a branch is read as what stands there, behind the end of the
body. -/
theorem LoweredElse.thinned
    {ifFalse : Label} {stop : Option Label} {otherwise : Else} {code : List Instruction}
    (h : LoweredElse ifFalse stop otherwise code) :
  Thinned (.border :: otherwise.tokens) (code.map Instruction.token)
  := by
  cases h with
  | absent =>
      cases stop with
      | none => apply Thinned.cons _ Thinned.nil
      | some stop =>
          apply Thinned.leave
          apply Thinned.cons _ Thinned.nil
  | block h =>
      rw [List.map_cons, List.map_cons, List.map_append]
      apply Thinned.leave
      apply Thinned.cons
      apply h.thinned.append (Thinned.cons _ Thinned.nil)
  | branch hsecond hrest =>
      rw [List.map_cons, List.map_cons, List.map_cons, List.map_cons, List.map_append]
      apply Thinned.leave
      apply Thinned.cons
      apply Thinned.cons
      apply Thinned.cons
      apply hsecond.thinned.append hrest.thinned

end

/-- The code of a method is read as its body is. -/
theorem Method.thinned_code
    (m : Method) :
  Thinned m.tokens (m.code.map Instruction.token)
  := (Stmt.lowered_bodyCode m.body 0).thinned

/-! ### Parts without borders -/

/-- The tokens are those of the parts, one behind the other, with borders only between the parts. -/
inductive Divided : List Token → List (List Observation) → Prop where
  | nil : Divided [] []
  | border {ts : List Token} {parts : List (List Observation)} (h : Divided ts parts) :
      Divided (.border :: ts) parts
  | part {ts : List Token} {parts : List (List Observation)} (os : List Observation)
      (h : Divided ts parts) : Divided (os.map .item ++ ts) (os :: parts)

theorem Divided.append
    (h : Divided ts parts) (h' : Divided us parts') :
  Divided (ts ++ us) (parts ++ parts')
  := by
  induction h with
  | nil => apply h'
  | border _ ih => apply ih.border
  | part os _ ih =>
      rw [List.append_assoc]
      apply ih.part os

theorem Divided.append_border
    (h : Divided ts parts) :
  Divided (ts ++ [.border]) parts
  := by
  rw [← parts.append_nil]
  apply h.append Divided.nil.border

theorem Divided.append_part
    (h : Divided ts parts) (os : List Observation) :
  Divided (ts ++ os.map .item) (parts ++ [os])
  := by
  have hpart := Divided.nil.part os
  rw [List.append_nil] at hpart
  apply h.append hpart

/-- No token of a part is left out with borders. -/
theorem Thinned.exists_of_map_item
    (h : Thinned ts (os.map .item ++ us')) :
  ∃ us, ts = os.map .item ++ us ∧ Thinned us us'
  := by
  induction os generalizing ts with
  | nil => exact ⟨ts, rfl, h⟩
  | cons o os ih =>
      cases h with
      | cons _ h =>
          obtain ⟨us, rfl, hus⟩ := ih h
          exact ⟨us, rfl, hus⟩

/-- Tokens are divided as they are before borders are left out. -/
theorem Divided.thinned
    (h : Divided ts' parts) (hthinned : Thinned ts ts') :
  Divided ts parts
  := by
  induction h generalizing ts with
  | nil =>
      cases hthinned
      apply Divided.nil
  | border _ ih =>
      cases hthinned with
      | cons _ hthinned => apply (ih hthinned).border
      | leave hthinned => apply ih hthinned
  | part os _ ih =>
      obtain ⟨us, rfl, hus⟩ := hthinned.exists_of_map_item
      apply (ih hus).part os

/-- Whatever is met is met in one of the parts, in their order. -/
theorem Divided.filterMap_item?
    (h : Divided ts parts) :
  ts.filterMap Token.item? = parts.flatten
  := by
  induction h with
  | nil => rfl
  | border _ ih => apply ih
  | part os _ ih =>
      rw [List.filterMap_append, List.flatten_cons, ih, List.filterMap_map]
      congr 1
      apply List.filterMap_some

/-- The tokens of a part stand next to one another, behind the parts before and in front of the
parts after. -/
theorem Divided.exists_split
    (h : Divided ts (before ++ os :: after)) :
  ∃ pre post, ts = pre ++ os.map .item ++ post ∧ Divided pre before ∧ Divided post after
  := by
  generalize hparts : before ++ os :: after = parts at h
  induction h generalizing before with
  | nil => simp at hparts
  | border _ ih =>
      obtain ⟨pre, post, rfl, hpre, hpost⟩ := ih hparts
      exact ⟨.border :: pre, post, rfl, hpre.border, hpost⟩
  | @part ts parts os' h ih =>
      cases before with
      | nil =>
          obtain ⟨rfl, rfl⟩ := List.cons.inj hparts
          exact ⟨[], ts, rfl, Divided.nil, h⟩
      | cons os'' before =>
          obtain ⟨rfl, hrest⟩ := List.cons.inj hparts
          obtain ⟨pre, post, rfl, hpre, hpost⟩ := ih hrest
          use os''.map .item ++ pre, post
          simp [hpre.part os'', hpost]

end MethodFlow
