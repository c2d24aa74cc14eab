import Mathlib.Data.List.Infix
import MethodFlow.Drawing.Dot

/-!
# The lines of the text of a drawing

A reader of a text in the DOT language keeps track of the quotes (`Drawing.Quoting`).  Only what
stands outside of quotes ends a line or makes a line one which joins two nodes, whatever is written
in the labels.  The lines of the text of a drawing which join nodes are those of its arrows
(`Drawing.arrowLines_render`).
-/

namespace MethodFlow

namespace Drawing

/-- Where a reader of a text is with respect to quotes. -/
inductive Quoting where
  | outside
  | inside
  /-- Inside of quotes, right behind a backslash. -/
  | escaped
deriving DecidableEq

namespace Quoting

variable {q : Quoting} {cs cs' : List Char}

/-- Where the reader is after a character. -/
def next : Quoting → Char → Quoting
  | outside, c => if c = '"' then inside else outside
  | inside, c => if c = '"' then outside else if c = '\\' then escaped else inside
  | escaped, _ => inside

/-- Where the reader is after a text. -/
def after (q : Quoting) (cs : List Char) : Quoting :=
  cs.foldl next q

/-- What of a text stands outside of quotes, the quotes included. -/
def bare : Quoting → List Char → List Char
  | _, [] => []
  | q, c :: cs =>
    if q = outside ∨ q.next c = outside then c :: bare (q.next c) cs else bare (q.next c) cs

/-- The lines of a text, which end where a line ends outside of quotes. -/
def lines : Quoting → List Char → List (List Char)
  | _, [] => []
  | q, c :: cs =>
    if q = outside ∧ c = '\n' then
      [] :: lines outside cs
    else
      match lines (q.next c) cs with
      | [] => [[c]]
      | l :: ls => (c :: l) :: ls

@[simp]
theorem after_cons
    (q : Quoting) (c : Char) (cs : List Char) :
  q.after (c :: cs) = (q.next c).after cs
  := rfl

theorem after_append
    (q : Quoting) (cs cs' : List Char) :
  q.after (cs ++ cs') = (q.after cs).after cs'
  := by
  apply List.foldl_append

theorem bare_append
    (q : Quoting) (cs cs' : List Char) :
  q.bare (cs ++ cs') = q.bare cs ++ (q.after cs).bare cs'
  := by
  induction cs generalizing q with
  | nil => rfl
  | cons c cs ih =>
      rw [List.cons_append, bare, bare, ih, after_cons]
      split <;> rfl

/-- A line is cut off where it ends, if nothing in it ends a line. -/
theorem lines_append_newline
    (hafter : q.after cs = outside) (hbare : '\n' ∉ q.bare cs) (rest : List Char) :
  q.lines (cs ++ '\n' :: rest) = cs :: outside.lines rest
  := by
  induction cs generalizing q with
  | nil =>
      obtain rfl : q = outside := hafter
      rw [List.nil_append, lines, if_pos ⟨rfl, rfl⟩]
  | cons c cs ih =>
      have hc : ¬ (q = outside ∧ c = '\n') := by
        rintro ⟨rfl, rfl⟩
        simp [bare] at hbare
      have hbare' : '\n' ∉ (q.next c).bare cs := by
        intro hmem
        apply hbare
        rw [bare]
        split
        · apply List.mem_cons_of_mem _ hmem
        · apply hmem
      rw [List.cons_append, lines, if_neg hc, ih hafter hbare']

/-- A text without quotes stands outside of quotes. -/
theorem after_and_bare_of_not_mem
    (h : '"' ∉ cs) :
  outside.after cs = outside ∧ outside.bare cs = cs
  := by
  induction cs with
  | nil => exact ⟨rfl, rfl⟩
  | cons c cs ih =>
      rw [List.mem_cons, not_or] at h
      obtain ⟨hafter, hbare⟩ := ih h.2
      have hnext : outside.next c = outside := if_neg (Ne.symm h.1)
      rw [after_cons, bare, if_pos (Or.inl rfl), hnext, hafter, hbare]
      exact ⟨rfl, rfl⟩

/-- A text which begins and ends outside of quotes, and there neither ends a line nor has the tip of
an arrow. -/
structure Quiet (cs : List Char) : Prop where
  after : outside.after cs = outside
  line : '\n' ∉ outside.bare cs
  tip : '>' ∉ outside.bare cs

theorem quiet_of_not_mem
    (hquote : '"' ∉ cs) (hline : '\n' ∉ cs) (htip : '>' ∉ cs) :
  Quiet cs
  := by
  obtain ⟨hafter, hbare⟩ := after_and_bare_of_not_mem hquote
  constructor
  · apply hafter
  · rwa [hbare]
  · rwa [hbare]

theorem Quiet.append
    (h : Quiet cs) (h' : Quiet cs') :
  Quiet (cs ++ cs')
  := by
  constructor
  · rw [after_append, h.after, h'.after]
  · rw [bare_append, h.after, List.mem_append, not_or]
    exact ⟨h.line, h'.line⟩
  · rw [bare_append, h.after, List.mem_append, not_or]
    exact ⟨h.tip, h'.tip⟩

theorem Quiet.append_arrow
    (h : Quiet cs) (h' : Quiet cs') :
  outside.after (cs ++ '-' :: '>' :: cs') = outside
    ∧ outside.bare (cs ++ '-' :: '>' :: cs') = outside.bare cs ++ '-' :: '>' :: outside.bare cs'
  := by
  rw [after_append, bare_append, h.after]
  exact ⟨h'.after, rfl⟩

/-- A text which does not come to the end of the quotes in which it stands. -/
structure Hides (cs : List Char) : Prop where
  after : inside.after cs = inside
  bare : inside.bare cs = []

/-- What stands in quotes is quiet. -/
theorem Hides.quiet
    (h : Hides cs) :
  Quiet ('"' :: cs ++ ['"'])
  := by
  have hbare : outside.bare ('"' :: cs ++ ['"']) = ['"', '"'] := by
    rw [bare_append, after_cons, Quoting.bare, if_pos (Or.inl rfl)]
    change '"' :: inside.bare cs ++ (inside.after cs).bare ['"'] = _
    rw [h.after, h.bare]
    rfl
  constructor
  · rw [after_append, after_cons]
    change (inside.after cs).after ['"'] = outside
    rw [h.after]
    rfl
  · rw [hbare]
    decide
  · rw [hbare]
    decide

theorem Hides.flatMap
    {α : Type} {write : α → List Char} (h : ∀ a, Hides (write a)) (as : List α) :
  Hides (as.flatMap write)
  := by
  induction as with
  | nil => exact ⟨rfl, rfl⟩
  | cons a as ih =>
      constructor
      · rw [List.flatMap_cons, after_append, (h a).after, ih.after]
      · rw [List.flatMap_cons, bare_append, (h a).after, (h a).bare, ih.bare]
        rfl

end Quoting

namespace Label

theorem hides_encodeChar
    (c : Char) :
  Quoting.Hides (encodeChar c)
  := by
  unfold encodeChar
  split
  · exact ⟨rfl, rfl⟩
  · constructor <;> simp_all [Quoting.after, Quoting.next, Quoting.bare]

theorem hides_encode
    (text : String) :
  Quoting.Hides (encode text)
  := by
  apply Quoting.Hides.flatMap hides_encodeChar

/-- The texts in a label do not end the quotes. -/
theorem hides_ofLines
    (texts : List String) :
  Quoting.Hides (ofLines texts)
  := by
  apply Quoting.Hides.flatMap
  intro text
  obtain ⟨hafter, hbare⟩ := hides_encode text
  constructor
  · rw [Quoting.after_append, hafter]
    rfl
  · rw [Quoting.bare_append, hafter, hbare]
    rfl

end Label

/-! ### The lines of a drawing -/

/-- A number is quiet. -/
theorem quiet_number
    (n : Nat) :
  Quoting.Quiet (toString n).toList
  := by
  have hdigits : ∀ c ∈ (toString n).toList, c.isDigit := by
    intro c hc
    rw [Nat.toString_eq_ofList_toDigits, String.toList_ofList] at hc
    apply Nat.isDigit_of_mem_toDigits (by decide) (by decide) hc
  have hnot : ∀ c : Char, c.isDigit = false → c ∉ (toString n).toList := by
    intro c hc hmem
    rw [hdigits c hmem] at hc
    contradiction
  exact Quoting.quiet_of_not_mem (hnot '"' rfl) (hnot '\n' rfl) (hnot '>' rfl)

/-- The attributes of a figure are quiet. -/
theorem quiet_attributes
    (f : Figure) :
  Quoting.Quiet (attributes f).toList
  := by
  unfold attributes
  cases f with
  | start => exact Quoting.quiet_of_not_mem (by simp) (by simp) (by simp)
  | stop => exact Quoting.quiet_of_not_mem (by simp) (by simp) (by simp)
  | block actions =>
      have hbox : Quoting.Quiet "shape=box, label=".toList :=
        Quoting.quiet_of_not_mem (by simp) (by simp) (by simp)
      simpa using hbox.append (Label.hides_ofLines actions).quiet
  | jump condition =>
      have hlabel : Quoting.Quiet "label=".toList :=
        Quoting.quiet_of_not_mem (by simp) (by simp) (by simp)
      have hshape : Quoting.Quiet ", shape=diamond".toList :=
        Quoting.quiet_of_not_mem (by simp) (by simp) (by simp)
      simpa using (hlabel.append (Label.hides_encode condition).quiet).append hshape

theorem quiet_mark
    (p : Exit) :
  Quoting.Quiet (mark p).toList
  := by
  cases p <;> constructor <;> simp [mark, Quoting.after, Quoting.next, Quoting.bare]

/-- A line joins two nodes if there is an arrow in it outside of quotes. -/
def Joins (line : List Char) : Prop :=
  "->".toList <:+: Quoting.bare .outside line

instance (line : List Char) : Decidable (Joins line) :=
  inferInstanceAs (Decidable ("->".toList <:+: Quoting.bare .outside line))

/-- The lines of a text which join nodes. -/
def arrowLines (text : String) : List String :=
  ((Quoting.lines .outside text.toList).filter (Joins ·)).map String.ofList

/-- A line is that of an arrow. -/
def Line.isArrow : Line → Bool
  | .node _ _ => false
  | .arrow _ _ _ => true

/-- A line of a drawing as it stands in the text. -/
def Line.indented (l : Line) : String :=
  "    " ++ l.render

theorem not_joins
    {line : List Char} (h : Quoting.Quiet line) :
  ¬ Joins line
  := by
  intro hjoins
  apply h.tip (hjoins.subset (by simp))

/-- The line of a node is quiet. -/
theorem quiet_indented_node
    (i : Nat) (f : Figure) :
  Quoting.Quiet (Line.node i f).indented.toList
  := by
  have hindent : Quoting.Quiet "    ".toList :=
    Quoting.quiet_of_not_mem (by simp) (by simp) (by simp)
  have hopen : Quoting.Quiet " [".toList :=
    Quoting.quiet_of_not_mem (by simp) (by simp) (by simp)
  have hclose : Quoting.Quiet "];".toList :=
    Quoting.quiet_of_not_mem (by simp) (by simp) (by simp)
  simpa [Line.indented, Line.render] using
    hindent.append ((quiet_number i).append (hopen.append ((quiet_attributes f).append hclose)))

/-- The line of an arrow is quiet before and behind the arrow. -/
theorem exists_quiet_indented_arrow
    (i : Nat) (p : Exit) (j : Nat) :
  ∃ source target, Quoting.Quiet source ∧ Quoting.Quiet target
    ∧ (Line.arrow i p j).indented.toList = source ++ '-' :: '>' :: target
  := by
  have hindent : Quoting.Quiet "    ".toList :=
    Quoting.quiet_of_not_mem (by simp) (by simp) (by simp)
  have hblank : Quoting.Quiet " ".toList :=
    Quoting.quiet_of_not_mem (by simp) (by simp) (by simp)
  have hclose : Quoting.Quiet ";".toList :=
    Quoting.quiet_of_not_mem (by simp) (by simp) (by simp)
  use "    ".toList ++ ((toString i).toList ++ " ".toList)
  use " ".toList ++ ((toString j).toList ++ ((mark p).toList ++ ";".toList))
  refine ⟨?source, ?target, ?line⟩
  case source => exact hindent.append ((quiet_number i).append hblank)
  case target => exact hblank.append ((quiet_number j).append ((quiet_mark p).append hclose))
  case line => simp [Line.indented, Line.render]

/-- A line of a drawing does not end before its end. -/
theorem indented_ends
    (l : Line) :
  Quoting.outside.after l.indented.toList = .outside
    ∧ '\n' ∉ Quoting.outside.bare l.indented.toList
  := by
  cases l with
  | node i f => exact ⟨(quiet_indented_node i f).after, (quiet_indented_node i f).line⟩
  | arrow i p j =>
      obtain ⟨source, target, hsource, htarget, heq⟩ := exists_quiet_indented_arrow i p j
      obtain ⟨hafter, hbare⟩ := hsource.append_arrow htarget
      rw [heq, hbare]
      use hafter
      simp [hsource.line, htarget.line]

/-- Of the lines of a drawing, those of arrows join nodes. -/
theorem joins_indented_iff
    (l : Line) :
  Joins l.indented.toList ↔ l.isArrow = true
  := by
  cases l with
  | node i f => simp [not_joins (quiet_indented_node i f), Line.isArrow]
  | arrow i p j =>
      obtain ⟨source, target, hsource, htarget, heq⟩ := exists_quiet_indented_arrow i p j
      rw [Joins, heq, (hsource.append_arrow htarget).2]
      apply iff_of_true _ rfl
      use Quoting.outside.bare source, Quoting.outside.bare target
      simp

/-- What joins nodes among the lines of a drawing, and of what follows them. -/
theorem filter_joins_lines
    (ls : List Line) (rest : List Char) :
  (Quoting.outside.lines
      (ls.flatMap (fun l => l.indented.toList ++ ['\n']) ++ rest)).filter (Joins ·)
    = (ls.filter Line.isArrow).map (·.indented.toList)
      ++ (Quoting.outside.lines rest).filter (Joins ·)
  := by
  induction ls with
  | nil => rfl
  | cons l ls ih =>
      obtain ⟨hafter, hbare⟩ := indented_ends l
      rw [List.flatMap_cons, List.append_assoc, List.append_assoc, List.singleton_append,
        Quoting.lines_append_newline hafter hbare, List.filter_cons, List.filter_cons, ih]
      simp only [joins_indented_iff, decide_eq_true_eq]
      split <;> rfl

/-- The lines of the text of a drawing which join nodes are those of its arrows, in the order in
which the arrows are drawn. -/
theorem arrowLines_render
    (ls : List Line) :
  arrowLines (render ls) = (ls.filter Line.isArrow).map Line.indented
  := by
  have htext : (render ls).toList
      = "digraph DfaGraph \x7b".toList ++ '\n' ::
        (ls.flatMap (fun l => l.indented.toList ++ ['\n']) ++ ("\x7d".toList ++ '\n' :: [])) := by
    unfold render Line.indented
    simp only [String.toList_append, String.toList_join, List.flatMap_map, String.reduceToList,
      List.cons_append, List.nil_append]
  have hheader : Quoting.Quiet "digraph DfaGraph \x7b".toList :=
    Quoting.quiet_of_not_mem (by simp) (by simp) (by simp)
  have hbrace : Quoting.Quiet "\x7d".toList :=
    Quoting.quiet_of_not_mem (by simp) (by simp) (by simp)
  rw [arrowLines, htext, Quoting.lines_append_newline hheader.after hheader.line,
    List.filter_cons_of_neg (by simpa only [decide_eq_true_eq] using not_joins hheader),
    filter_joins_lines,
    Quoting.lines_append_newline hbrace.after hbrace.line,
    List.filter_cons_of_neg (by simpa only [decide_eq_true_eq] using not_joins hbrace)]
  simp [Quoting.lines]

end Drawing

end MethodFlow
