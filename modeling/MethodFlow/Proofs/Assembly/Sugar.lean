import MethodFlow.Proofs.Assembly.Aliasing

/-!
# Chains of conditions and nested blocks are sugar

`DesugarsBody` says that a list of statements is another one with some further conditions of chains
written as branches in blocks of their own and the statements of some nested blocks written where
the blocks were, at any depth.  This takes other labels but leaves the operations as they are
(`DesugarsBody.operations_eq`), so a method written in this way has the same flow graph
(`Method.exists_flowGraph_of_desugars`).
-/

namespace MethodFlow

mutual

/-- The second statement is the first one with some of the sugar in it resolved. -/
inductive Desugars : Stmt → Stmt → Prop where
  | act (a : Action) : Desugars (.act a) (.act a)
  | branch (c : Expr) {body body' : List Stmt} {otherwise otherwise' : Else}
      (hbody : DesugarsBody body body') (hotherwise : DesugarsElse otherwise otherwise') :
      Desugars (.branch c body otherwise) (.branch c body' otherwise')
  | loop (c : Expr) {body body' : List Stmt} (h : DesugarsBody body body') :
      Desugars (.loop c body) (.loop c body')
  | block {body body' : List Stmt} (h : DesugarsBody body body') :
      Desugars (.block body) (.block body')

/-- The second list is the first one with some of the sugar in it resolved. -/
inductive DesugarsBody : List Stmt → List Stmt → Prop where
  | nil : DesugarsBody [] []
  | cons {s s' : Stmt} {body body' : List Stmt} (hs : Desugars s s')
      (hbody : DesugarsBody body body') : DesugarsBody (s :: body) (s' :: body')
  /-- A nested block gives way to its statements. -/
  | splice {inner inner' body body' : List Stmt} (hinner : DesugarsBody inner inner')
      (hbody : DesugarsBody body body') : DesugarsBody (.block inner :: body) (inner' ++ body')

/-- The second alternative is the first one with some of the sugar in it resolved. -/
inductive DesugarsElse : Else → Else → Prop where
  | absent : DesugarsElse .absent .absent
  | block {body body' : List Stmt} (h : DesugarsBody body body') :
      DesugarsElse (.block body) (.block body')
  | branch (c : Expr) {body body' : List Stmt} {otherwise otherwise' : Else}
      (hbody : DesugarsBody body body') (hotherwise : DesugarsElse otherwise otherwise') :
      DesugarsElse (.branch c body otherwise) (.branch c body' otherwise')
  /-- A further condition of a chain becomes a branch in a block of its own. -/
  | nest (c : Expr) {body body' : List Stmt} {otherwise otherwise' : Else}
      (hbody : DesugarsBody body body') (hotherwise : DesugarsElse otherwise otherwise') :
      DesugarsElse (.branch c body otherwise) (.block [.branch c body' otherwise'])

end

mutual

theorem Desugars.refl
    (s : Stmt) :
  Desugars s s
  := by
  cases s with
  | act a => apply Desugars.act a
  | branch c body otherwise =>
      apply Desugars.branch c (DesugarsBody.refl body) (DesugarsElse.refl otherwise)
  | loop c body => apply Desugars.loop c (DesugarsBody.refl body)
  | block body => apply Desugars.block (DesugarsBody.refl body)

theorem DesugarsBody.refl
    (body : List Stmt) :
  DesugarsBody body body
  := by
  cases body with
  | nil => apply DesugarsBody.nil
  | cons s body => apply DesugarsBody.cons (Desugars.refl s) (DesugarsBody.refl body)

theorem DesugarsElse.refl
    (otherwise : Else) :
  DesugarsElse otherwise otherwise
  := by
  cases otherwise with
  | absent => apply DesugarsElse.absent
  | block body => apply DesugarsElse.block (DesugarsBody.refl body)
  | branch c body otherwise =>
      apply DesugarsElse.branch c (DesugarsBody.refl body) (DesugarsElse.refl otherwise)

end

/-- The operations of two lists of statements, one behind the other. -/
theorem Stmt.bodyOperations_append
    (p : Nat) (body body' : List Stmt) :
  Stmt.bodyOperations p (body ++ body')
    = Stmt.bodyOperations p body
      ++ Stmt.bodyOperations (p + (Stmt.bodyOperations p body).length) body'
  := by
  induction body generalizing p with
  | nil => rfl
  | cons s body ih =>
      simp only [List.cons_append, Stmt.bodyOperations, ih, List.append_assoc, List.length_append,
        Nat.add_assoc]

mutual

/-- Without some of its sugar, a statement has the same operations. -/
theorem Desugars.operations_eq
    {s s' : Stmt} (h : Desugars s s') (p : Nat) :
  s.operations p = s'.operations p
  := by
  cases h with
  | act a => rfl
  | branch c hbody hotherwise =>
      obtain ⟨hlead, hoperations⟩ := hotherwise.operations_eq
      simp only [Stmt.operations, hbody.operations_eq, hlead, hoperations]
  | loop c h => simp only [Stmt.operations, h.operations_eq]
  | block h => simp only [Stmt.operations, h.operations_eq]

/-- Without some of its sugar, a list of statements has the same operations. -/
theorem DesugarsBody.operations_eq
    {body body' : List Stmt} (h : DesugarsBody body body') (p : Nat) :
  Stmt.bodyOperations p body = Stmt.bodyOperations p body'
  := by
  cases h with
  | nil => rfl
  | cons hs hbody => simp only [Stmt.bodyOperations, hs.operations_eq, hbody.operations_eq]
  | splice hinner hbody =>
      simp only [Stmt.bodyOperations, Stmt.operations, Stmt.bodyOperations_append,
        hinner.operations_eq, hbody.operations_eq]

/-- Without some of its sugar, an alternative has the same operations. -/
theorem DesugarsElse.operations_eq
    {otherwise otherwise' : Else} (h : DesugarsElse otherwise otherwise') :
  otherwise.lead = otherwise'.lead ∧ ∀ p, otherwise.operations p = otherwise'.operations p
  := by
  cases h with
  | absent => exact ⟨rfl, fun _ => rfl⟩
  | block h =>
      use rfl
      intro p
      simp only [Else.operations, h.operations_eq]
  | branch c hbody hotherwise =>
      obtain ⟨hlead, hoperations⟩ := hotherwise.operations_eq
      use rfl
      intro p
      simp only [Else.operations, hbody.operations_eq, hlead, hoperations]
  | nest c hbody hotherwise =>
      -- The jump past the branch goes to its end, whether the chain ends there or the block does.
      obtain ⟨hlead, hoperations⟩ := hotherwise.operations_eq
      use rfl
      intro p
      simp only [Else.operations, Stmt.bodyOperations, Stmt.operations, List.append_nil,
        hbody.operations_eq, hlead, hoperations, List.length_cons, List.length_append]
      congr 2
      omega

end

/-- However many further conditions of chains in a method are written as branches in blocks of their
own, and nested blocks as their statements, the method has the same flow graph. -/
theorem Method.exists_flowGraph_of_desugars
    {m : Method} {body : List Stmt} (h : DesugarsBody m.body body) :
  ∃ g, m.flowGraph = .ok g ∧ ({ m with body } : Method).flowGraph = .ok g
  := exists_flowGraph_of_operations rfl (h.operations_eq 0)

/-- A method with a chain of three arms, of which the first one returns and the last one is a loop,
and with a nested block behind it. -/
def Method.chain : Method where
  name := "chain"
  parameters := [⟨⟨0, "p"⟩, .bool⟩, ⟨⟨1, "q"⟩, .bool⟩]
  body := [
    .branch (.read ⟨0, "p"⟩) [.act (.ret [])]
      (.branch (.read ⟨1, "q"⟩) [] (.block [.loop (.read ⟨0, "p"⟩) []])),
    .block [.block [], .act (.eval (.read ⟨0, "p"⟩))]]

/-- The body of the method without any sugar. -/
def Method.chainDesugared : List Stmt :=
  [ .branch (.read ⟨0, "p"⟩) [.act (.ret [])]
      (.block [.branch (.read ⟨1, "q"⟩) [] (.block [.loop (.read ⟨0, "p"⟩) []])]),
    .act (.eval (.read ⟨0, "p"⟩))]

/-- The method has the same flow graph without its sugar. -/
theorem Method.exists_flowGraph_of_desugars_chain :
  DesugarsBody chain.body chainDesugared
    ∧ ∃ g, chain.flowGraph = .ok g
      ∧ ({ chain with body := chainDesugared } : Method).flowGraph = .ok g
  := by
  have hchain : DesugarsBody chain.body chainDesugared := by
    apply DesugarsBody.cons
    · apply Desugars.branch _ (DesugarsBody.refl _)
      apply DesugarsElse.nest _ (DesugarsBody.refl _) (DesugarsElse.refl _)
    · have hinner : DesugarsBody [.block [], .act (.eval (.read ⟨0, "p"⟩))]
          [.act (.eval (.read ⟨0, "p"⟩))] := by
        apply DesugarsBody.splice DesugarsBody.nil (DesugarsBody.refl _)
      apply DesugarsBody.splice hinner DesugarsBody.nil
  exact ⟨hchain, exists_flowGraph_of_desugars hchain⟩

end MethodFlow
