import MethodFlow.Proofs.Expr.Lexing

/-!
# Rendered expressions keep their structure

A text is read by cutting it into tokens and deriving these in the grammar of phrases.  Where the
names of the variables are identifiers, the text of an expression is read as the phrase of the
expression and as nothing else, so two expressions have the same text exactly when they have the
same phrase: `Expr.render_eq_iff_and_reads_iff`.
-/

namespace MethodFlow

/-- A text may be read as a phrase. -/
def Phrase.Reads (text : String) (t : Phrase) : Prop :=
  ∃ ts, Lexes text.toList ts ∧ Derives 0 ts t

/-- A text may be read as one phrase at most. -/
theorem Phrase.Reads.unique
    {text : String} {t t' : Phrase} (h : Reads text t) (h' : Reads text t') :
  t = t'
  := by
  obtain ⟨ts, hlexes, hderives⟩ := h
  obtain ⟨ts', hlexes', hderives'⟩ := h'
  obtain rfl := hlexes.unique hlexes'
  apply hderives.unique hderives'

/-- The text of a phrase whose names are identifiers may be read as the phrase. -/
theorem Phrase.reads_render
    (t : Phrase) (ht : ∀ x ∈ t.names, IsIdentifier x) :
  Reads t.render t
  := by
  use t.tokens
  constructor
  · have hlexes := (spells_render t ht).lexes [] [] (by simp [EndsWord]) .done
    simpa using hlexes
  · apply (derives_tokens t fun x hx => (ht x hx).2).loosen (Nat.zero_le _)

namespace Expr

/-- The names of the variables an expression reads are identifiers. -/
def IsNamed (e : Expr) : Prop :=
  ∀ v ∈ e.reads, Phrase.IsIdentifier v.name
deriving Decidable

/-- The text of an expression may be read as its phrase. -/
theorem reads_phrase
    {e : Expr} (h : e.IsNamed) :
  Phrase.Reads e.render e.phrase
  := by
  rw [← render_phrase]
  apply Phrase.reads_render
  intro x hx
  rw [names_phrase] at hx
  obtain ⟨v, hv, rfl⟩ := List.mem_map.mp hx
  apply h v hv

/-- Rendered expressions keep their structure.  Where all names are identifiers, two expressions
have the same text exactly when they have the same phrase, and the text of an expression may be
read as its phrase and as nothing else. -/
theorem render_eq_iff_and_reads_iff
    {e e' : Expr} (h : e.IsNamed) (h' : e'.IsNamed) :
  (e.render = e'.render ↔ e.phrase = e'.phrase)
    ∧ ∀ t, Phrase.Reads e.render t ↔ t = e.phrase
  := by
  have hreads := reads_phrase h
  refine ⟨⟨?same, ?render⟩, ?reads⟩
  case same =>
    intro hrender
    apply hreads.unique
    rw [hrender]
    apply reads_phrase h'
  case render =>
    intro hphrase
    rw [← render_phrase, hphrase, render_phrase]
  case reads =>
    intro t
    constructor
    · intro ht
      apply ht.unique hreads
    · rintro rfl
      apply hreads

/-- Differences nested on the right and on the left have different texts, and the former is read as
such, a negative literal in it as a negation. -/
theorem render_eq_iff_and_reads_iff_sub :
  let a : Expr := .read ⟨0, "a"⟩
  let b : Expr := .read ⟨1, "b"⟩
  let right : Expr := .binary .sub a (.binary .sub b (.int (-3)))
  let left : Expr := .binary .sub (.binary .sub a b) (.int (-3))
  right.IsNamed ∧ left.IsNamed ∧ right.render = "a - (b - -3)" ∧ right.render ≠ left.render
    ∧ ∀ t, Phrase.Reads "a - (b - -3)" t
      ↔ t = .binary .sub (.name "a") (.binary .sub (.name "b") (.unary .neg (.number 3)))
  := by
  intro a b right left
  have hright : right.IsNamed := by decide
  have hleft : left.IsNamed := by decide
  obtain ⟨hsame, hreads⟩ := render_eq_iff_and_reads_iff hright hleft
  have hrender : right.render = "a - (b - -3)" := by decide
  refine ⟨hright, hleft, hrender, ?differ, ?reads⟩
  case differ =>
    intro hequal
    exact absurd (hsame.mp hequal) (by decide)
  case reads =>
    rw [← hrender]
    apply hreads

end Expr

end MethodFlow
