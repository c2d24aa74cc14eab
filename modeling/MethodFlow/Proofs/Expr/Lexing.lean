import Mathlib.Data.List.Basic
import MethodFlow.Proofs.Expr.Grammar

/-!
# The tokens of a text

A text is cut into tokens from left to right, each one as long as it can be, and white space is
skipped: `Phrase.Lexes`.  A text is cut in one way at most (`Phrase.Lexes.unique`).

`Phrase.Spells` says that a text is cut into given tokens whatever comes behind it, as long as that
does not go on with a word.  The text of a phrase whose names are identifiers spells the tokens of
the phrase (`Phrase.spells_render`).
-/

namespace MethodFlow

namespace Phrase

/-- A character of which words are made. -/
def isWordChar (c : Char) : Bool :=
  c.isAlphanum || c == '_'

/-- A text is a word: it is made of letters, digits and underscores and does not begin with a
digit. -/
def IsWord (x : String) : Prop :=
  x.toList ≠ [] ∧ x.toList.all isWordChar ∧ ¬ x.toList.head?.any Char.isDigit
deriving Decidable

/-- A text is an identifier: it is a word and no truth value. -/
def IsIdentifier (x : String) : Prop :=
  IsWord x ∧ ∀ b : Bool, x ≠ toString b
deriving Decidable

/-- The tokens which are signs, with their texts.  No sign stands behind another one with which it
begins. -/
def signs : List (String × Token) :=
  let operators : List BinOp :=
    [.eq, .ne, .le, .ge, .and, .or, .lt, .gt, .add, .sub, .mul, .div, .rem]
  operators.map (fun op => (op.sign, .operator op)) ++
    [(UnOp.not.sign, .bang), ("(", .opening), (")", .closing)]

/-- The token at the beginning of a text, as long as it can be, and the rest of the text. -/
def first? (cs : List Char) : Option (Token × List Char) :=
  if cs.takeWhile Char.isDigit ≠ [] then
    some (.number (Nat.ofDigitChars 10 (cs.takeWhile Char.isDigit) 0), cs.dropWhile Char.isDigit)
  else if cs.takeWhile isWordChar ≠ [] then
    some (.word (String.ofList (cs.takeWhile isWordChar)), cs.dropWhile isWordChar)
  else
    signs.findSome? fun (sign, token) => (sign.toList.isPrefixOf? cs).map (token, ·)

/-- A text is cut into tokens. -/
inductive Lexes : List Char → List Token → Prop where
  | done : Lexes [] []
  | blank {c : Char} {cs : List Char} {ts : List Token} (hc : c.isWhitespace) (h : Lexes cs ts) :
      Lexes (c :: cs) ts
  | token {token : Token} {cs rest : List Char} {ts : List Token}
      (hfirst : first? cs = some (token, rest)) (h : Lexes rest ts) : Lexes cs (token :: ts)

variable {cs rest : List Char} {ts us : List Token} {text x : String}

theorem first?_of_isWhitespace
    {c : Char} (hc : c.isWhitespace) (cs : List Char) :
  first? (c :: cs) = none
  := by
  simp only [Char.isWhitespace, Bool.or_eq_true, decide_eq_true_eq] at hc
  obtain ((rfl | rfl) | rfl) | rfl := hc <;> rfl

/-- A text is cut into tokens in one way at most. -/
theorem Lexes.unique
    (h : Lexes cs ts) (h' : Lexes cs us) :
  ts = us
  := by
  induction h generalizing us with
  | done =>
      cases h' with
      | done => rfl
      | token hfirst => contradiction
  | blank hc _ ih =>
      cases h' with
      | blank _ h' => apply ih h'
      | token hfirst => simp [first?_of_isWhitespace hc] at hfirst
  | token hfirst _ ih =>
      cases h' with
      | done => contradiction
      | blank hc => simp [first?_of_isWhitespace hc] at hfirst
      | token hfirst' h' =>
          rw [hfirst] at hfirst'
          cases hfirst'
          rw [ih h']

/-! ### The first token -/

/-- A text does not go on with a word. -/
def EndsWord (cs : List Char) : Prop :=
  ∀ c ∈ cs.head?, ¬ isWordChar c

theorem endsWord_cons
    {c : Char} (hc : ¬ isWordChar c) (cs : List Char) :
  EndsWord (c :: cs)
  := by
  rintro _ ⟨⟩
  exact hc

theorem isWordChar_of_isDigit
    {c : Char} (hc : c.isDigit) :
  isWordChar c
  := by
  simp [isWordChar, Char.isAlphanum, hc]

theorem isDigit_of_mem_toDigits
    {n : Nat} {c : Char} (hc : c ∈ Nat.toDigits 10 n) :
  c.isDigit
  := Nat.isDigit_of_mem_toDigits (by decide) (by decide) hc

theorem takeWhile_dropWhile_append
    {p : Char → Bool} (hcs : ∀ c ∈ cs, p c) (hrest : ∀ c ∈ rest.head?, ¬ p c) :
  (cs ++ rest).takeWhile p = cs ∧ (cs ++ rest).dropWhile p = rest
  := by
  rw [List.takeWhile_append_of_pos hcs, List.dropWhile_append_of_pos hcs]
  cases rest with
  | nil => simp
  | cons c rest => simp [hrest c rfl]

/-- The first token is the number whose digits come first. -/
theorem first?_number
    (n : Nat) (hrest : EndsWord rest) :
  first? (Nat.toDigits 10 n ++ rest) = some (.number n, rest)
  := by
  have hend : ∀ c ∈ rest.head?, ¬ c.isDigit := by
    intro c hc hdigit
    apply hrest c hc (isWordChar_of_isDigit hdigit)
  obtain ⟨htake, hdrop⟩ := takeWhile_dropWhile_append (fun _ hc => isDigit_of_mem_toDigits hc) hend
  rw [first?, htake, hdrop, if_pos Nat.toDigits_ne_nil, Nat.ofDigitChars_ten_toDigits]

/-- The first token is the word which comes first. -/
theorem first?_word
    (hx : IsWord x) (hrest : EndsWord rest) :
  first? (x.toList ++ rest) = some (.word x, rest)
  := by
  obtain ⟨hne, hword, hstart⟩ := hx
  obtain ⟨htake, hdrop⟩ := takeWhile_dropWhile_append (List.all_eq_true.mp hword) hrest
  have hnumber : (x.toList ++ rest).takeWhile Char.isDigit = [] := by
    obtain ⟨c, cs, hcs⟩ := List.exists_cons_of_ne_nil hne
    rw [hcs, List.head?_cons, Option.any_some] at hstart
    rw [hcs, List.cons_append, List.takeWhile_cons_of_neg hstart]
  rw [first?, hnumber, if_neg (not_not_intro rfl), htake, hdrop, if_pos hne, String.ofList_toList]

/-- The first token is the binary operator whose sign comes first, with a blank behind it. -/
theorem first?_operator
    (op : BinOp) (rest : List Char) :
  first? (op.sign.toList ++ ' ' :: rest) = some (.operator op, ' ' :: rest)
  := by
  cases op <;> rfl

/-- The first token is the unary operator whose sign comes first, unless the sign goes on. -/
theorem first?_unary
    (op : UnOp) {c : Char} (hc : c ≠ '=') (rest : List Char) :
  first? (op.sign.toList ++ c :: rest) = some (.unary op, c :: rest)
  := by
  cases op with
  | neg => rfl
  | not =>
      -- Only the sign of `BinOp.ne` goes on from here, with the character excluded.
      have hword : isWordChar '!' = false := by decide
      simp [first?, signs, UnOp.sign, BinOp.sign, List.isPrefixOf?, List.findSome?, Token.unary,
        hword, hc.symm]

/-! ### Spelling -/

/-- A text is cut into the given tokens, whatever comes behind it, unless that goes on with a word.
The text does not go on with a sign in front of it. -/
structure Spells (text : String) (ts : List Token) : Prop where
  starts : ∃ c cs, text.toList = c :: cs ∧ c ≠ '='
  lexes : ∀ (rest : List Char) (us : List Token), EndsWord rest → Lexes rest us →
    Lexes (text.toList ++ rest) (ts ++ us)

theorem starts_of_isWordChar
    (hne : text.toList ≠ []) (hword : ∀ c ∈ text.toList, isWordChar c) :
  ∃ c cs, text.toList = c :: cs ∧ c ≠ '='
  := by
  obtain ⟨c, cs, hcs⟩ := List.exists_cons_of_ne_nil hne
  rw [hcs] at hword
  use c, cs, hcs
  rintro rfl
  exact absurd (hword '=' List.mem_cons_self) (by decide)

/-- The digits of a number spell it. -/
theorem spells_number
    (n : Nat) :
  Spells (toString n) [.number n]
  := by
  rw [Nat.toString_eq_ofList_toDigits]
  constructor
  · apply starts_of_isWordChar
    · rw [String.toList_ofList]
      apply Nat.toDigits_ne_nil
    · intro c hc
      rw [String.toList_ofList] at hc
      apply isWordChar_of_isDigit (isDigit_of_mem_toDigits hc)
  · intro rest us hrest h
    rw [String.toList_ofList]
    apply Lexes.token (first?_number n hrest) h

theorem spells_word
    (hx : IsWord x) :
  Spells x [.word x]
  := by
  constructor
  · apply starts_of_isWordChar hx.1 (List.all_eq_true.mp hx.2.1)
  · intro rest us hrest h
    apply Lexes.token (first?_word hx hrest) h

/-- An enclosed text spells the enclosed tokens. -/
theorem Spells.enclose
    (h : Spells text ts) (needed : Bool) :
  Spells (Expr.enclose needed text) (Phrase.enclose needed ts)
  := by
  cases needed with
  | false => apply h
  | true =>
      constructor
      · use '(', text.toList ++ [')']
        simp [Expr.enclose]
      · intro rest us _ hlexes
        have hclosing : Lexes (')' :: rest) (.closing :: us) := .token rfl hlexes
        have hinside := h.lexes _ _ (endsWord_cons (by decide) rest) hclosing
        have hopening : Lexes ('(' :: (text.toList ++ ')' :: rest)) _ := .token rfl hinside
        simpa [Expr.enclose, Phrase.enclose] using hopening

/-- A unary operator in front of its operand. -/
theorem Spells.unary
    (h : Spells text ts) (op : UnOp) :
  Spells (op.sign ++ text) (.unary op :: ts)
  := by
  constructor
  · cases op <;> simp [UnOp.sign]
  · intro rest us hrest hlexes
    obtain ⟨c, cs, hcs, hne⟩ := h.starts
    have hoperand := h.lexes _ _ hrest hlexes
    rw [hcs] at hoperand
    rw [String.toList_append, hcs, List.append_assoc]
    apply Lexes.token (first?_unary op hne _) hoperand

/-- A binary operator between its operands. -/
theorem Spells.binary
    {l r : String} {ls rs : List Token} (hl : Spells l ls) (op : BinOp) (hr : Spells r rs) :
  Spells (l ++ " " ++ op.sign ++ " " ++ r) (ls ++ .operator op :: rs)
  := by
  constructor
  · obtain ⟨c, cs, hcs, hne⟩ := hl.starts
    use c
    simp [hcs, hne]
  · intro rest us hrest hlexes
    have hright : Lexes (' ' :: (r.toList ++ rest)) (rs ++ us) :=
      .blank rfl (hr.lexes _ _ hrest hlexes)
    have hoperator := Lexes.token (first?_operator op _) hright
    have hblank : Lexes (' ' :: (op.sign.toList ++ ' ' :: (r.toList ++ rest))) _ :=
      .blank rfl hoperator
    have hleft := hl.lexes _ _ (endsWord_cons (by decide) _) hblank
    simpa using hleft

/-- The text of a phrase spells the tokens of the phrase. -/
theorem spells_render
    (t : Phrase) (ht : ∀ x ∈ t.names, IsIdentifier x) :
  Spells t.render t.tokens
  := by
  induction t with
  | number n => apply spells_number
  | truth b =>
      apply spells_word
      cases b <;> decide
  | name x => apply spells_word (ht x (List.mem_singleton_self x)).1
  | unary op t ih => apply ((ih ht).enclose _).unary
  | binary op l r ihl ihr =>
      have hl := ihl fun x hx => ht x (List.mem_append_left _ hx)
      have hr := ihr fun x hx => ht x (List.mem_append_right _ hx)
      apply (hl.enclose _).binary op (hr.enclose _)

end Phrase

end MethodFlow
