import Mathlib.Data.List.Basic
import MethodFlow.Drawing.Dot
import MethodFlow.Proofs.Expr.Lexing

/-!
# Reading a drawing

A drawing can be read off its text.  `Drawing.Legible` says of a way of writing that what it writes
at the beginning of a text can be told from the rest, as long as the rest is one which may follow.
A list is legible if its members are and none of them begins what follows the list
(`Legible.list`): so is a label, the text between whose quotes is written character by character,
and so is a drawing, which is written line by line.  `Drawing.render_injective` is the outcome.
-/

namespace MethodFlow

namespace Drawing

variable {α β : Type} {write : α → List Char} {Follows : List Char → Prop}

/-- What is written at the beginning of a text can be read off it, and with it the rest of the text,
as long as the rest is one which may follow. -/
def Legible (write : α → List Char) (Follows : List Char → Prop) : Prop :=
  ∀ ⦃a b : α⦄ ⦃s t : List Char⦄, Follows s → Follows t → write a ++ s = write b ++ t → a = b ∧ s = t

theorem Legible.comp
    (h : Legible write Follows) {f : β → α} (hf : Function.Injective f) :
  Legible (fun b => write (f b)) Follows
  := by
  intro a b s t hs ht heq
  obtain ⟨hab, hst⟩ := h hs ht heq
  exact ⟨hf hab, hst⟩

/-- A list is read member by member, up to what no member begins. -/
theorem Legible.list
    (h : Legible write fun _ => True) :
  Legible (List.flatMap write) (∀ a, ¬ write a <+: ·)
  := by
  intro as
  induction as with
  | nil =>
      intro bs s t hs _ heq
      cases bs with
      | nil => exact ⟨rfl, heq⟩
      | cons b bs =>
          rw [List.flatMap_nil, List.nil_append, List.flatMap_cons, List.append_assoc] at heq
          exact absurd ⟨_, heq.symm⟩ (hs b)
  | cons a as ih =>
      intro bs s t hs ht heq
      cases bs with
      | nil =>
          rw [List.flatMap_nil, List.nil_append, List.flatMap_cons, List.append_assoc] at heq
          exact absurd ⟨_, heq⟩ (ht a)
      | cons b bs =>
          rw [List.flatMap_cons, List.flatMap_cons, List.append_assoc, List.append_assoc] at heq
          obtain ⟨rfl, htail⟩ := h trivial trivial heq
          obtain ⟨rfl, hst⟩ := ih hs ht htail
          exact ⟨rfl, hst⟩

/-- What stands between fixed texts is read whatever follows, if the second of them may follow
it. -/
theorem Legible.between
    (h : Legible write Follows) (before after : List Char) (hafter : ∀ s, Follows (after ++ s)) :
  Legible (fun a => before ++ write a ++ after) fun _ => True
  := by
  intro a b s t _ _ heq
  simp only [List.append_assoc] at heq
  obtain ⟨rfl, hrest⟩ := h (hafter s) (hafter t) (List.append_cancel_left heq)
  exact ⟨rfl, List.append_cancel_left hrest⟩

/-! ### Numbers -/

/-- A text does not begin with a digit. -/
def EndsNumber (s : List Char) : Prop :=
  ∀ c ∈ s.head?, ¬ c.isDigit

theorem takeWhile_toDigits
    (n : Nat) {s : List Char} (hs : EndsNumber s) :
  (Nat.toDigits 10 n ++ s).takeWhile Char.isDigit = Nat.toDigits 10 n
  := (Phrase.takeWhile_dropWhile_append (fun _ hc => Phrase.isDigit_of_mem_toDigits hc) hs).1

/-- A number is read up to what is no digit. -/
theorem legible_number :
  Legible (fun n : Nat => (toString n).toList) EndsNumber
  := by
  intro n m s t hs ht heq
  simp only [Nat.toString_eq_ofList_toDigits, String.toList_ofList] at heq
  have hdigits : Nat.toDigits 10 n = Nat.toDigits 10 m := by
    rw [← takeWhile_toDigits n hs, heq, takeWhile_toDigits m ht]
  constructor
  · calc
      n = Nat.ofDigitChars 10 (Nat.toDigits 10 n) 0 := Nat.ofDigitChars_ten_toDigits.symm
      _ = Nat.ofDigitChars 10 (Nat.toDigits 10 m) 0 := by rw [hdigits]
      _ = m := Nat.ofDigitChars_ten_toDigits
  · rw [hdigits] at heq
    apply List.append_cancel_left heq

/-! ### Labels -/

namespace Label

/-- A text does not begin with a character as it is written in a label. -/
def EndsText (s : List Char) : Prop :=
  ∀ c, ¬ encodeChar c <+: s

theorem legible_encodeChar :
  Legible encodeChar fun _ => True
  := by
  intro a b s t _ _ heq
  unfold encodeChar at heq
  split at heq <;> split at heq <;> grind

theorem legible_encode :
  Legible encode EndsText
  := legible_encodeChar.list.comp fun _ _ => String.toList_injective

theorem endsText_quote
    (s : List Char) :
  EndsText ('"' :: s)
  := by
  intro c
  unfold encodeChar
  split <;> simp_all

theorem endsText_newline
    (s : List Char) :
  EndsText (newline ++ s)
  := by
  intro c
  unfold encodeChar newline
  split <;> grind

/-- A label is read up to the closing quote. -/
theorem legible_ofLines :
  Legible ofLines (['"'] <+: ·)
  := by
  have hline := legible_encode.between [] newline endsText_newline
  have hquote : ∀ s, ['"'] <+: s → ∀ text, ¬ encode text ++ newline <+: s := by
    rintro _ ⟨s, rfl⟩ text htext
    rw [encode] at htext
    cases htoList : text.toList with
    | nil => simp [htoList, newline] at htext
    | cons c cs =>
        rw [htoList, List.flatMap_cons, List.append_assoc] at htext
        apply endsText_quote s c ((List.prefix_append _ _).trans htext)
  intro as bs s t hs ht heq
  apply hline.list (hquote s hs) (hquote t ht) heq

end Label

/-! ### Lines -/

/-- The attributes of a figure are read whatever follows. -/
theorem legible_attributes :
  Legible (fun f => (attributes f).toList) fun _ => True
  := by
  have hblock := Label.legible_ofLines.between "shape=box, label=\"".toList "\"".toList
    fun s => ⟨s, by simp⟩
  have hjump := Label.legible_encode.between "label=\"".toList "\", shape=diamond".toList
    fun s => by simpa using Label.endsText_quote _
  intro a b s t _ _ heq
  unfold attributes at heq
  cases a with
  | start => cases b <;> simp_all
  | stop => cases b <;> simp_all
  | block actions =>
      cases b with
      | block actions' =>
          simp only [String.toList_append, String.toList_ofList] at heq
          obtain ⟨rfl, hst⟩ := hblock trivial trivial heq
          exact ⟨rfl, hst⟩
      | _ => simp at heq
  | jump condition =>
      cases b with
      | jump condition' =>
          simp only [String.toList_append, String.toList_ofList] at heq
          obtain ⟨rfl, hst⟩ := hjump trivial trivial heq
          exact ⟨rfl, hst⟩
      | _ => simp at heq

theorem legible_mark :
  Legible (fun p => (mark p).toList) ([';'] <+: ·)
  := by
  rintro p q _ _ ⟨s, rfl⟩ ⟨t, rfl⟩ heq
  unfold mark at heq
  cases p <;> cases q <;> simp_all

theorem endsNumber_blank
    (s : List Char) :
  EndsNumber (' ' :: s)
  := by
  simp [EndsNumber]

theorem endsNumber_mark
    (p : Exit) (s : List Char) :
  EndsNumber ((mark p).toList ++ ';' :: s)
  := by
  unfold mark
  cases p <;> simp [EndsNumber]

/-- A line is read whatever follows. -/
theorem legible_line :
  Legible (fun l => (Line.render l).toList) fun _ => True
  := by
  intro a b s t _ _ heq
  unfold Line.render at heq
  cases a with
  | node n f =>
      cases b with
      | node m f' =>
          simp only [String.toList_append, String.reduceToList, List.append_assoc,
            List.cons_append, List.nil_append] at heq
          obtain ⟨rfl, hfigure⟩ := legible_number (endsNumber_blank _) (endsNumber_blank _) heq
          simp only [List.cons.injEq, true_and] at hfigure
          obtain ⟨rfl, hend⟩ := legible_attributes trivial trivial hfigure
          simp only [List.cons.injEq, true_and] at hend
          exact ⟨rfl, hend⟩
      | arrow m q m' =>
          simp only [String.toList_append, String.reduceToList, List.append_assoc,
            List.cons_append, List.nil_append] at heq
          obtain ⟨-, hrest⟩ := legible_number (endsNumber_blank _) (endsNumber_blank _) heq
          simp at hrest
  | arrow n p n' =>
      cases b with
      | node m f =>
          simp only [String.toList_append, String.reduceToList, List.append_assoc,
            List.cons_append, List.nil_append] at heq
          obtain ⟨-, hrest⟩ := legible_number (endsNumber_blank _) (endsNumber_blank _) heq
          simp at hrest
      | arrow m q m' =>
          simp only [String.toList_append, String.reduceToList, List.append_assoc,
            List.cons_append, List.nil_append] at heq
          obtain ⟨rfl, htarget⟩ := legible_number (endsNumber_blank _) (endsNumber_blank _) heq
          simp only [List.cons.injEq, true_and] at htarget
          obtain ⟨rfl, hmark⟩ := legible_number (endsNumber_mark p s) (endsNumber_mark q t) htarget
          obtain ⟨rfl, hend⟩ := legible_mark ⟨s, rfl⟩ ⟨t, rfl⟩ hmark
          exact ⟨rfl, List.append_cancel_left hend⟩

/-- Different drawings have different texts. -/
theorem render_injective
    {lines lines' : List Line} (h : render lines = render lines') :
  lines = lines'
  := by
  have hline := legible_line.between "    ".toList "\n".toList fun _ => trivial
  have hbrace : ∀ l,
      ¬ "    ".toList ++ (Line.render l).toList ++ "\n".toList <+: "\x7d\n".toList := by
    simp
  have htoList := congrArg String.toList h
  unfold render at htoList
  simp only [String.toList_append, String.toList_join, List.flatMap_map] at htoList
  rw [List.append_assoc, List.append_assoc] at htoList
  exact (hline.list hbrace hbrace (List.append_cancel_left htoList)).1

end Drawing

end MethodFlow
