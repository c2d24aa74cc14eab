import Mathlib.Algebra.Ring.Parity
import Mathlib.Data.List.DropRight
import MethodFlow.Proofs.Drawing.Statements

/-!
# The labels of a drawing

A label holds texts of any characters.  `Label.encode` comes to two replacements, one after the
other (`Label.encode_eq_substitute`).  A reader which counts backslashes and one which remembers
whether the last character was a backslash agree on what ends the quotes
(`Quoting.after_eq_of_bare`), so no text in a label ends the quotes in which the label stands, and
`Label.lines?`, which reads a label from left to right, accepts the labels and gives back the texts
they hold (`Label.lines?_eq_some_iff`).  `Label.ofLines_safe` puts it together.
-/

namespace MethodFlow

namespace Drawing

namespace Quoting

/-- How many backslashes a text ends with. -/
def backslashes (cs : List Char) : Nat :=
  (cs.rtakeWhile (· = '\\')).length

/-- What stands in quotes up to the one which ends them, and what comes behind that one. -/
def split : Quoting → List Char → Option (List Char × List Char)
  | _, [] => none
  | q, c :: cs =>
    if q.next c = outside then
      some ([], cs)
    else
      (split (q.next c) cs).map fun parts => (c :: parts.1, parts.2)

variable {q : Quoting} {cs : List Char}

theorem backslashes_concat
    (cs : List Char) (c : Char) :
  backslashes (cs ++ [c]) = if c = '\\' then backslashes cs + 1 else 0
  := by
  unfold backslashes
  by_cases hc : c = '\\' <;> simp [hc]

theorem bare_append_eq_nil_iff
    {cs' : List Char} :
  q.bare (cs ++ cs') = [] ↔ q.bare cs = [] ∧ (q.after cs).bare cs' = []
  := by
  rw [bare_append, List.append_eq_nil_iff]

theorem bare_singleton_eq_nil_iff
    {c : Char} :
  q.bare [c] = [] ↔ q ≠ outside ∧ q.next c ≠ outside
  := by
  simp [bare]

/-- In quotes, the reader is behind a backslash which escapes exactly when the backslashes which
come last are odd in number. -/
theorem after_eq_of_bare
    (h : inside.bare cs = []) :
  inside.after cs = if Odd (backslashes cs) then escaped else inside
  := by
  induction cs using List.reverseRecOn with
  | nil => rfl
  | append_singleton cs c ih =>
      obtain ⟨hcs, hc⟩ := bare_append_eq_nil_iff.mp h
      have hnext : (inside.after cs).next c ≠ outside := (bare_singleton_eq_nil_iff.mp hc).2
      rw [after_append, backslashes_concat]
      change (inside.after cs).next c = _
      rw [ih hcs] at hnext ⊢
      by_cases hodd : Odd (backslashes cs)
      · have heven : ¬ Odd (backslashes cs + 1) := Nat.not_odd_iff_even.mpr hodd.add_one
        by_cases hslash : c = '\\' <;> simp [next, hodd, hslash, heven]
      · have hodd' : Odd (backslashes cs + 1) := (Nat.not_odd_iff_even.mp hodd).add_one
        rw [if_neg hodd] at hnext ⊢
        by_cases hslash : c = '\\'
        · simp [next, hslash, hodd']
        · have hquote : c ≠ '"' := by
            rintro rfl
            apply hnext rfl
          simp [next, hslash, hquote]

/-- A quote which does not end the quotes has an odd number of backslashes in front of it. -/
theorem odd_backslashes
    {before behind : List Char} (h : inside.bare (before ++ '"' :: behind) = []) :
  Odd (backslashes before)
  := by
  rw [← List.singleton_append] at h
  obtain ⟨hbefore, hquote⟩ := bare_append_eq_nil_iff.mp h
  obtain ⟨hquote, -⟩ := bare_append_eq_nil_iff.mp hquote
  by_contra hodd
  rw [after_eq_of_bare hbefore, if_neg hodd] at hquote
  apply (bare_singleton_eq_nil_iff.mp hquote).2 rfl

/-- The quotes end at the first quote behind what does not come to their end. -/
theorem split_append
    (hq : q ≠ outside) (hafter : q.after cs = inside) (hbare : q.bare cs = []) (rest : List Char) :
  q.split (cs ++ '"' :: rest) = some (cs, rest)
  := by
  induction cs generalizing q with
  | nil =>
      obtain rfl : q = inside := hafter
      rfl
  | cons c cs ih =>
      rw [← List.singleton_append, bare_append_eq_nil_iff, bare_singleton_eq_nil_iff] at hbare
      obtain ⟨⟨-, hnext⟩, hbare⟩ := hbare
      rw [List.cons_append, split, if_neg hnext, ih hnext hafter hbare]
      rfl

end Quoting

namespace Label

/-! ### Writing by replacements -/

/-- A text in which something else is put for every occurrence of a character. -/
def substitute (c : Char) (replacement cs : List Char) : List Char :=
  cs.flatMap fun d => if d = c then replacement else [d]

/-- A text is written by doubling its backslashes and then putting a backslash in front of each
quote.  The other way round, the backslashes put in front of quotes would be doubled too. -/
theorem encode_eq_substitute
    (text : String) :
  encode text = substitute '"' ['\\', '"'] (substitute '\\' ['\\', '\\'] text.toList)
  := by
  unfold encode substitute
  rw [List.flatMap_assoc]
  apply List.flatMap_congr
  intro c _
  unfold encodeChar
  by_cases hslash : c = '\\'
  · simp [hslash]
  · by_cases hquote : c = '"' <;> simp [hslash, hquote]

/-! ### Reading from left to right -/

/-- The character in front of the first line. -/
def prepend (c : Char) : List (List Char) → Option (List (List Char))
  | [] => none
  | line :: lines => some ((c :: line) :: lines)

/-- The lines of a label, read from left to right.  A backslash is read together with the character
behind it: as a backslash, as a quote or as the end of a line.  A text is not a label if a quote
stands in it alone, if a backslash stands before any other character, or if its last line is not
ended. -/
def readLines : List Char → Option (List (List Char))
  | [] => some []
  | c :: cs =>
    if c = '\\' then
      match cs with
      | [] => none
      | d :: cs =>
        if d = 'n' then
          (readLines cs).map ([] :: ·)
        else if d = '\\' ∨ d = '"' then
          (readLines cs).bind (prepend d)
        else
          none
    else if c = '"' then
      none
    else
      (readLines cs).bind (prepend c)

/-- The texts which a label holds. -/
def lines? (label : List Char) : Option (List String) :=
  (readLines label).map (·.map String.ofList)

/-- A character is read as it was written. -/
theorem readLines_encodeChar
    (c : Char) (cs : List Char) :
  readLines (encodeChar c ++ cs) = (readLines cs).bind (prepend c)
  := by
  unfold encodeChar
  by_cases hc : c = '\\' ∨ c = '"'
  · have hn : c ≠ 'n' := by
      rintro rfl
      simp at hc
    simp [hc, hn, readLines]
  · rw [not_or] at hc
    cases cs <;> simp [hc, readLines]

/-- A line is read as it was written. -/
theorem readLines_line
    (line cs : List Char) :
  readLines (line.flatMap encodeChar ++ newline ++ cs) = (readLines cs).map (line :: ·)
  := by
  induction line with
  | nil => rfl
  | cons c line ih =>
      rw [List.flatMap_cons, List.append_assoc, List.append_assoc, readLines_encodeChar,
        ← List.append_assoc, ih]
      cases readLines cs <;> rfl

theorem readLines_lines
    (lines : List (List Char)) :
  readLines (lines.flatMap fun line => line.flatMap encodeChar ++ newline) = some lines
  := by
  induction lines with
  | nil => rfl
  | cons line lines ih =>
      rw [List.flatMap_cons, readLines_line, ih]
      rfl

/-- Whatever is read with a character in front was written with it. -/
theorem eq_of_prepend
    {c : Char} {rest : Option (List (List Char))} {lines : List (List Char)}
    (h : rest.bind (prepend c) = some lines) :
  ∃ line lines', rest = some (line :: lines') ∧ lines = (c :: line) :: lines'
  := by
  obtain ⟨lines', rfl, hprepend⟩ := Option.bind_eq_some_iff.mp h
  cases lines' with
  | nil => contradiction
  | cons line lines' =>
      cases hprepend
      exact ⟨line, lines', rfl, rfl⟩

/-- Only what was written is read. -/
theorem eq_of_readLines
    {label : List Char} {lines : List (List Char)} (h : readLines label = some lines) :
  label = lines.flatMap fun line => line.flatMap encodeChar ++ newline
  := by
  fun_induction readLines label generalizing lines with
  | case1 =>
      cases h
      rfl
  | case2 => contradiction
  | case3 cs ih =>
      obtain ⟨lines', hcs, rfl⟩ := Option.map_eq_some_iff.mp h
      rw [ih hcs]
      rfl
  | case4 d cs _ hd ih =>
      obtain ⟨line, lines', hcs, rfl⟩ := eq_of_prepend h
      rw [ih hcs]
      simp [encodeChar, hd]
  | case5 => contradiction
  | case6 => contradiction
  | case7 c cs hslash hquote ih =>
      obtain ⟨line, lines', hcs, rfl⟩ := eq_of_prepend h
      rw [ih hcs]
      simp [encodeChar, hslash, hquote]

theorem ofLines_eq
    (texts : List String) :
  ofLines texts
    = (texts.map String.toList).flatMap fun line => line.flatMap encodeChar ++ newline
  := by
  rw [List.flatMap_map]
  rfl

/-- Exactly the label of some texts is read as a label of these texts. -/
theorem lines?_eq_some_iff
    {label : List Char} {texts : List String} :
  lines? label = some texts ↔ label = ofLines texts
  := by
  rw [ofLines_eq, lines?, Option.map_eq_some_iff]
  constructor
  · rintro ⟨lines, hlines, rfl⟩
    rw [List.map_map]
    simpa using eq_of_readLines hlines
  · rintro rfl
    use texts.map String.toList, readLines_lines _
    rw [List.map_map]
    simp

/-- A label is written by two substitutions and the escape for a new line behind each text.  No
quote in it ends the quotes around it, and no other label holds its texts. -/
theorem ofLines_safe
    (texts : List String) :
  ofLines texts
      = texts.flatMap (fun text =>
        substitute '"' ['\\', '"'] (substitute '\\' ['\\', '\\'] text.toList) ++ ['\\', 'n'])
    ∧ (∀ before behind, ofLines texts = before ++ '"' :: behind →
      Odd (Quoting.backslashes before))
    ∧ Even (Quoting.backslashes (ofLines texts))
    ∧ (attributes (.block texts)).toList
      = "shape=box, label=".toList ++ '"' :: (ofLines texts ++ ['"'])
    ∧ (∀ rest, Quoting.inside.split (ofLines texts ++ '"' :: rest) = some (ofLines texts, rest))
    ∧ ∀ label, lines? label = some texts ↔ label = ofLines texts
  := by
  obtain ⟨hafter, hbare⟩ := hides_ofLines texts
  refine ⟨?replaced, ?quote, ?last, ?written, ?closed, fun label => lines?_eq_some_iff⟩
  case replaced =>
    apply List.flatMap_congr
    intro text _
    rw [encode_eq_substitute]
    rfl
  case quote =>
    intro before behind heq
    rw [heq] at hbare
    apply Quoting.odd_backslashes hbare
  case last =>
    rw [← Nat.not_odd_iff_even]
    intro hodd
    rw [Quoting.after_eq_of_bare hbare, if_pos hodd] at hafter
    contradiction
  case written =>
    unfold attributes
    simp only [String.toList_append, String.toList_ofList, String.reduceToList,
      List.cons_append, List.nil_append]
  case closed =>
    intro rest
    apply Quoting.split_append (by decide) hafter hbare

/-- A text which ends in a backslash, one which looks like the end of a line, and an empty one. -/
example :
    lines? (ofLines ["a\"\\", "\\n", ""]) = some ["a\"\\", "\\n", ""] := by
  decide

end Label

end Drawing

end MethodFlow
