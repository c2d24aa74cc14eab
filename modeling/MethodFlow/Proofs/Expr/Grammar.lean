import Mathlib.Tactic.Use
import MethodFlow.Proofs.Expr.Phrase

/-!
# The grammar of phrases

`Phrase.Derives` is the grammar of phrases over their tokens: a unary operator binds more tightly
than every binary one, binary operators bind as tightly as their levels say and associate to the
left, and parentheses enclose any phrase.  The tokens `Phrase.tokens` of a phrase, in which an
operand is enclosed only where it binds too loosely for its place, are derived from it
(`Phrase.derives_tokens`).

The grammar is unambiguous (`Phrase.Derives.unique`).  This is shown by a reader which goes over the
tokens once, keeps what waits for an operand on a stack, and completes what waits there when it
meets something which binds less tightly: whatever is derived from a phrase leaves the reader with
that phrase (`Phrase.Derives.read`).
-/

namespace MethodFlow

namespace Phrase

/-- The tokens of source text. -/
inductive Token where
  | number (value : Nat)
  | word (text : String)
  /-- The sign of a binary operator, which may stand for a unary operator as well. -/
  | operator (op : BinOp)
  | bang
  | opening
  | closing
deriving DecidableEq

/-- The token of a unary operator. -/
def Token.unary : UnOp → Token
  | .neg => .operator .sub
  | .not => .bang

/-- Tokens, enclosed in parentheses if asked to. -/
def enclose (needed : Bool) (ts : List Token) : List Token :=
  if needed then .opening :: (ts ++ [.closing]) else ts

/-- What tokens may be read as where an operand of the given level is wanted: a phrase which binds
at least as tightly.  At level `0` any phrase may stand. -/
inductive Derives : Nat → List Token → Phrase → Prop where
  | number {n : Nat} : Derives Expr.tightest [.number n] (.number n)
  | truth {b : Bool} : Derives Expr.tightest [.word (toString b)] (.truth b)
  | name {x : String} (h : ∀ b : Bool, x ≠ toString b) : Derives Expr.tightest [.word x] (.name x)
  | unary {op : UnOp} {ts : List Token} {t : Phrase} (h : Derives Expr.tightest ts t) :
      Derives Expr.tightest (.unary op :: ts) (.unary op t)
  | parentheses {ts : List Token} {t : Phrase} (h : Derives 0 ts t) :
      Derives Expr.tightest (.opening :: (ts ++ [.closing])) t
  | binary {op : BinOp} {ls rs : List Token} {l r : Phrase} (hl : Derives op.level ls l)
      (hr : Derives (op.level + 1) rs r) :
      Derives op.level (ls ++ .operator op :: rs) (.binary op l r)
  | loosen {level level' : Nat} {ts : List Token} {t : Phrase} (hlevel : level' ≤ level)
      (h : Derives level ts t) : Derives level' ts t

/-- The tokens of the text of a phrase. -/
def tokens : Phrase → List Token
  | .number n => [.number n]
  | .truth b => [.word (toString b)]
  | .name x => [.word x]
  | .unary op t => .unary op :: enclose (t.level < Expr.tightest) t.tokens
  | .binary op l r =>
    enclose (l.level < op.level) l.tokens ++
      .operator op :: enclose (r.level ≤ op.level) r.tokens

variable {level : Nat} {needed : Bool} {ts : List Token} {t t' : Phrase}

/-- A phrase which is enclosed if it binds too loosely may stand where a level is wanted. -/
theorem Derives.enclose
    (h : Derives t.level ts t) (hlevel : level ≤ Expr.tightest)
    (hneeded : needed = false → level ≤ t.level) :
  Derives level (Phrase.enclose needed ts) t
  := by
  cases needed with
  | true => apply (parentheses (h.loosen (Nat.zero_le _))).loosen hlevel
  | false => apply h.loosen (hneeded rfl)

/-- The tokens of a phrase may be read as the phrase. -/
theorem derives_tokens
    (t : Phrase) (ht : ∀ x ∈ t.names, ∀ b : Bool, x ≠ toString b) :
  Derives t.level t.tokens t
  := by
  induction t with
  | number n => apply Derives.number
  | truth b => apply Derives.truth
  | name x => apply Derives.name (ht x (List.mem_singleton_self x))
  | unary op t ih =>
      apply Derives.unary
      apply (ih ht).enclose (Nat.le_refl _)
      simp
  | binary op l r ihl ihr =>
      have htight := Expr.level_lt_tightest op
      apply Derives.binary
      · apply (ihl fun x hx => ht x (List.mem_append_left _ hx)).enclose (Nat.le_of_lt htight)
        simp
      · apply (ihr fun x hx => ht x (List.mem_append_right _ hx)).enclose htight
        intro hneeded
        apply Nat.succ_le_of_lt (by simpa using hneeded)

/-! ### A reader -/

/-- What waits for an operand on its right. -/
inductive Frame where
  | unary (op : UnOp)
  | binary (op : BinOp) (lhs : Phrase)
  | parentheses

/-- The level of the operand something waits for. -/
def Frame.operandLevel : Frame → Nat
  | .unary _ => Expr.tightest
  | .binary op _ => op.level + 1
  | .parentheses => 0

/-- What waits for an operand, completed by it. -/
def Frame.fill : Frame → Phrase → Phrase
  | .unary op, t => .unary op t
  | .binary op l, t => .binary op l t
  -- This is never used: only the closing parenthesis completes parentheses.
  | .parentheses, t => t

/-- The level of the operand the top of a stack waits for. -/
def operandLevel : List Frame → Nat
  | [] => 0
  | f :: _ => f.operandLevel

/-- Completes the top of the stack as long as it binds at least as tightly as an operator of the
given level. -/
def complete (level : Nat) : List Frame → Phrase → List Frame × Phrase
  | [], t => ([], t)
  | f :: stack, t =>
    if level < f.operandLevel then complete level stack (f.fill t) else (f :: stack, t)

/-- The state of the reader. -/
inductive Reader where
  /-- An operand comes next. -/
  | before (stack : List Frame)
  /-- An operand was read. -/
  | behind (stack : List Frame) (operand : Phrase)

/-- What a word is read as. -/
def ofWord (x : String) : Phrase :=
  if x = toString true then .truth true
  else if x = toString false then .truth false
  else .name x

/-- Reads a token. -/
def Reader.step : Reader → Token → Option Reader
  | .before stack, .number n => some (.behind stack (.number n))
  | .before stack, .word x => some (.behind stack (ofWord x))
  | .before stack, .operator .sub => some (.before (.unary .neg :: stack))
  | .before stack, .bang => some (.before (.unary .not :: stack))
  | .before stack, .opening => some (.before (.parentheses :: stack))
  | .behind stack t, .operator op =>
    let (stack, l) := complete op.level stack t
    some (.before (.binary op l :: stack))
  | .behind stack t, .closing =>
    match complete 0 stack t with
    | (.parentheses :: stack, t) => some (.behind stack t)
    | _ => none
  | _, _ => none

/-- Reads tokens. -/
def Reader.run (state : Reader) (ts : List Token) : Option Reader :=
  ts.foldlM step state

/-- Nothing is completed where the top of the stack waits for an operand which binds no more
tightly. -/
theorem complete_of_le
    {stack : List Frame} (h : operandLevel stack ≤ level) (t : Phrase) :
  complete level stack t = (stack, t)
  := by
  cases stack with
  | nil => rfl
  | cons f stack =>
      change f.operandLevel ≤ level at h
      rw [complete, if_neg (Nat.not_lt.mpr h)]

theorem complete_of_lt
    {f : Frame} (h : level < f.operandLevel) (stack : List Frame) (t : Phrase) :
  complete level (f :: stack) t = complete level stack (f.fill t)
  := by
  rw [complete, if_pos h]

theorem ofWord_toString
    (b : Bool) :
  ofWord (toString b) = .truth b
  := by
  cases b <;> decide

theorem ofWord_eq_name
    {x : String} (h : ∀ b : Bool, x ≠ toString b) :
  ofWord x = .name x
  := by
  rw [ofWord, if_neg (h true), if_neg (h false)]

namespace Reader

theorem run_cons
    (state : Reader) (token : Token) (ts : List Token) :
  state.run (token :: ts) = (state.step token).bind (run · ts)
  := rfl

theorem run_append
    (state : Reader) (ts us : List Token) :
  state.run (ts ++ us) = (state.run ts).bind (run · us)
  := List.foldlM_append

theorem step_unary
    (stack : List Frame) (op : UnOp) :
  (before stack).step (.unary op) = some (before (.unary op :: stack))
  := by
  cases op <;> rfl

end Reader

/-- The reader has read a phrase: for everything which binds less tightly than unary operators and
no more tightly than the given level, it is the same as if the phrase were the operand behind the
given stack. -/
def Reader.HasRead (level : Nat) (stack : List Frame) (t : Phrase) (state : Option Reader) : Prop :=
  ∃ stack' t', state = some (.behind stack' t')
    ∧ ∀ k ≤ level, k < Expr.tightest → complete k stack' t' = complete k stack t

theorem Reader.hasRead_behind
    (level : Nat) (stack : List Frame) (t : Phrase) :
  HasRead level stack t (some (.behind stack t))
  := ⟨stack, t, rfl, fun _ _ _ => rfl⟩

/-- A reader which stands before an operand reads what is derived from a phrase as the phrase, if
what is on top of the stack waits for such an operand. -/
theorem Derives.read
    (h : Derives level ts t) (stack : List Frame) (hstack : operandLevel stack ≤ level) :
  Reader.HasRead level stack t ((Reader.before stack).run ts)
  := by
  induction h generalizing stack with
  | number => apply Reader.hasRead_behind
  | @truth b =>
      change Reader.HasRead _ stack _ (some (.behind stack (ofWord (toString b))))
      rw [ofWord_toString]
      apply Reader.hasRead_behind
  | @name x hx =>
      change Reader.HasRead _ stack _ (some (.behind stack (ofWord x)))
      rw [ofWord_eq_name hx]
      apply Reader.hasRead_behind
  | @unary op ts t _ ih =>
      -- The operator is completed later, by whatever comes next and binds less tightly.
      obtain ⟨stack', t', hrun, hcomplete⟩ := ih (.unary op :: stack) (Nat.le_refl _)
      use stack', t'
      constructor
      · rw [Reader.run_cons, Reader.step_unary, Option.bind_some, hrun]
      · intro k hk htight
        rw [hcomplete k hk htight, complete_of_lt htight]
        rfl
  | @parentheses ts t _ ih =>
      obtain ⟨stack', t', hrun, hcomplete⟩ := ih (.parentheses :: stack) (Nat.le_refl _)
      have hclosing : (Reader.behind stack' t').step .closing = some (.behind stack t) := by
        rw [Reader.step, hcomplete 0 (Nat.le_refl _) (by decide)]
        rfl
      change Reader.HasRead _ _ _ ((Reader.before (.parentheses :: stack)).run (ts ++ [.closing]))
      rw [Reader.run_append, hrun, Option.bind_some, Reader.run_cons, hclosing]
      apply Reader.hasRead_behind
  | @binary op ls rs l r _ _ ihl ihr =>
      have htight := Expr.level_lt_tightest op
      obtain ⟨stack₁, t₁, hrunl, hl⟩ := ihl stack hstack
      obtain ⟨stack₂, t₂, hrunr, hr⟩ := ihr (.binary op l :: stack) (Nat.le_refl _)
      have hoperator : (Reader.behind stack₁ t₁).step (.operator op)
          = some (.before (.binary op l :: stack)) := by
        rw [Reader.step, hl op.level (Nat.le_refl _) htight, complete_of_le hstack]
      use stack₂, t₂
      constructor
      · rw [Reader.run_append, hrunl, Option.bind_some, Reader.run_cons, hoperator,
          Option.bind_some, hrunr]
      · intro k hk hk'
        rw [hr k (Nat.le_succ_of_le hk) hk', complete_of_lt (Nat.lt_succ_of_le hk)]
        rfl
  | loosen hlevel _ ih =>
      obtain ⟨stack', t', hrun, hcomplete⟩ := ih stack (Nat.le_trans hstack hlevel)
      use stack', t', hrun
      intro k hk
      apply hcomplete k (Nat.le_trans hk hlevel)

/-- Tokens may be read as one phrase at most. -/
theorem Derives.unique
    (h : Derives 0 ts t) (h' : Derives 0 ts t') :
  t = t'
  := by
  obtain ⟨stack₁, t₁, hrun, hread⟩ := h.read [] (Nat.le_refl 0)
  obtain ⟨stack₂, t₂, hrun', hread'⟩ := h'.read [] (Nat.le_refl 0)
  obtain ⟨rfl, rfl⟩ : stack₁ = stack₂ ∧ t₁ = t₂ := by
    simpa [hrun] using hrun'
  have hcomplete := (hread 0 (Nat.le_refl 0) (by decide)).symm.trans
    (hread' 0 (Nat.le_refl 0) (by decide))
  exact congrArg Prod.snd hcomplete

end Phrase

end MethodFlow
