import MethodFlow.Proofs.Execution.Structured
import MethodFlow.Proofs.LinearCode.Lowered

/-!
# Structured code runs as its linear code

`Awaits` says that linear code, from a position on, is the code of certain statements and then comes
to its end, possibly by way of places and jumps.  `Awaits.executes` says that it then runs as these
statements do, and `Method.executes_code` says so of the code of a whole method.
-/

namespace MethodFlow

open LinearCode

variable {code before after before' after' first second : List Instruction} {k body : List Stmt}
  {s : Stmt} {c : Expr} {l ifFalse : Label} {stop : Option Label} {otherwise : Else}
  {os : List Bool} {es : List Observation} {e : Ending}

/-- From the position on, the code executes the statements `k`. -/
inductive Awaits (code : List Instruction) : List Instruction → List Instruction → List Stmt → Prop
    where
  | finish : Awaits code code [] []
  | place {before after : List Instruction} {k : List Stmt} {l : Label}
      (h : Awaits code (before ++ [.place l]) after k) : Awaits code before (.place l :: after) k
  | jump {before after before' after' : List Instruction} {k : List Stmt} {l : Label}
      (hcode : before ++ .jump l :: after = code) (h : Awaits code before' (.place l :: after') k) :
      Awaits code before (.jump l :: after) k
  | body {before after first : List Instruction} {body k : List Stmt}
      (hbody : LoweredBody body first) (h : Awaits code (before ++ first) after k) :
      Awaits code before (first ++ after) (body ++ k)

theorem Awaits.append_eq
    (h : Awaits code before after k) :
  before ++ after = code
  := by
  induction h with
  | finish => apply List.append_nil
  | place h ih => simpa using ih
  | jump hcode h ih => apply hcode
  | body hbody h ih => simpa using ih

theorem LinearCode.executes_place_iff :
  Executes before (.place l :: after) os es e ↔ Executes (before ++ [.place l]) after os es e
  := by
  constructor
  · intro h
    cases h with
    | place h => apply h
  · apply Executes.place

/-- Code which executes no statements comes to its end. -/
theorem Awaits.executes_nil
    (h : Awaits code before after []) (hnodup : (placed code).Nodup) (os : List Bool) :
  Executes before after os [] .finished
  := by
  generalize hk : ([] : List Stmt) = k at h
  induction h with
  | finish => apply Executes.stop
  | place h ih => apply Executes.place (ih hk)
  | jump hcode h ih =>
      apply Executes.jump (finds_of_nodup hnodup hcode h.append_eq)
      apply executes_place_iff.mp (ih hk)
  | body hbody h ih =>
      obtain ⟨rfl, rfl⟩ := List.append_eq_nil_iff.mp hk.symm
      cases hbody with
      | nil => simpa using ih rfl

/-- Code which executes a statement comes to the code of the statement. -/
theorem Awaits.exists_lowered
    (h : Awaits code before after (s :: k)) (hnodup : (placed code).Nodup) :
  ∃ before' first after', Lowered s first ∧ Awaits code (before' ++ first) after' k
    ∧ ∀ os es e, Executes before' (first ++ after') os es e → Executes before after os es e
  := by
  generalize hk : s :: k = k' at h
  induction h with
  | finish => contradiction
  | place h ih =>
      obtain ⟨before', first, after', hfirst, hrest, hrun⟩ := ih hk
      use before', first, after', hfirst, hrest
      intro os es e he
      apply Executes.place (hrun os es e he)
  | jump hcode h ih =>
      obtain ⟨before', first, after', hfirst, hrest, hrun⟩ := ih hk
      use before', first, after', hfirst, hrest
      intro os es e he
      apply Executes.jump (finds_of_nodup hnodup hcode h.append_eq)
      apply executes_place_iff.mp (hrun os es e he)
  | @body before after _ _ _ hbody h ih =>
      cases hbody with
      | nil =>
          rw [List.append_nil] at ih
          apply ih hk
      | @cons _ _ first second hfirst hsecond =>
          obtain ⟨rfl, rfl⟩ := List.cons.inj hk
          use before, first, second ++ after, hfirst
          constructor
          · apply Awaits.body hsecond
            rwa [List.append_assoc]
          · intro os es e he
            rwa [List.append_assoc]

/-! ### Alternatives -/

/-- The code behind the body of a branch ends where the arms of the chain end. -/
theorem LoweredElse.exists_append_place
    {ifFalse stop : Label} {otherwise : Else} {second : List Instruction}
    (h : LoweredElse ifFalse (some stop) otherwise second) :
  ∃ between, second = between ++ [.place stop]
  := by
  cases h with
  | absent => exact ⟨[.place ifFalse], rfl⟩
  | @block _ _ _ code h => exact ⟨.jump stop :: .place ifFalse :: code, rfl⟩
  | @branch _ _ c _ _ onTrue onFalse code _ hcode hrest =>
      obtain ⟨between, rfl⟩ := hrest.exists_append_place
      use .jump stop :: .place ifFalse :: .branch c onTrue onFalse :: .place onTrue ::
        (code ++ between)
      simp

/-- A jump to the end of the code in between reaches what comes behind it. -/
theorem Awaits.jump_over
    {between : List Instruction}
    (h : Awaits code (before ++ .jump l :: (between ++ [.place l])) after k) :
  Awaits code before (.jump l :: (between ++ [.place l]) ++ after) k
  := by
  have hplace : Awaits code (before ++ .jump l :: between) (.place l :: after) k := by
    apply Awaits.place
    simpa using h
  apply Awaits.jump _ hplace
  simpa using hplace.append_eq

/-- Where the body of a branch ends, what comes behind the alternative is executed. -/
theorem LoweredElse.awaits_behind
    (helse : LoweredElse ifFalse stop otherwise second)
    (h : Awaits code (before ++ second) after k) :
  Awaits code before (second ++ after) k
  := by
  cases helse with
  | absent =>
      apply Awaits.place
      cases stop with
      | none => apply h
      | some stop =>
          apply Awaits.place
          simpa using h
  | @block _ stop _ second hbody =>
      have hend : Awaits code (before ++ .jump stop ::
          (.place ifFalse :: second ++ [.place stop])) after k := h
      apply hend.jump_over
  | @branch _ stop c _ _ onTrue onFalse second _ hsecond hrest =>
      obtain ⟨between, rfl⟩ := hrest.exists_append_place
      have hend : Awaits code (before ++ .jump stop :: (.place ifFalse ::
          .branch c onTrue onFalse :: .place onTrue :: (second ++ between) ++ [.place stop]))
          after k := by
        simpa using h
      simpa using hend.jump_over

/-- Where the condition of a branch fails, its alternative is executed. -/
theorem LoweredElse.exists_awaits_body
    (helse : LoweredElse ifFalse stop otherwise second)
    (h : Awaits code (before ++ second) after k) :
  ∃ before' after', before' ++ .place ifFalse :: after' = code
    ∧ Awaits code (before' ++ [.place ifFalse]) after' (otherwise.body ++ k)
  := by
  have happend := h.append_eq
  cases helse with
  | absent =>
      use before, stop.toList.map .place ++ after
      constructor
      · simpa using happend
      · cases stop with
        | none => apply h
        | some stop =>
            apply Awaits.place
            simpa [Else.body] using h
  | @block _ stop _ second hbody =>
      use before ++ [.jump stop], second ++ .place stop :: after
      constructor
      · simpa using happend
      · apply Awaits.body hbody
        apply Awaits.place
        simpa using h
  | @branch _ stop c body otherwise onTrue onFalse second rest hsecond hrest =>
      use before ++ [.jump stop],
        .branch c onTrue onFalse :: .place onTrue :: (second ++ rest) ++ after
      constructor
      · simpa using happend
      · apply Awaits.body (LoweredBody.singleton (Lowered.branch hsecond hrest))
        simpa using h

/-! ### The simulation -/

/-- A branch goes on with its body or with its alternative. -/
theorem Awaits.executes_branch
    {body : List Stmt} (h : Awaits code before after (.branch c body otherwise :: k))
    (hnodup : (placed code).Nodup) (o : Bool)
    (hrest : ∀ before' after',
      Awaits code before' after' ((if o then body else otherwise.body) ++ k) →
        Executes before' after' os es e) :
  Executes before after (o :: os) (.test c :: es) e
  := by
  obtain ⟨before', _, after', hfirst, hbehind, hrun⟩ := h.exists_lowered hnodup
  cases hfirst with
  | @branch _ _ _ ifTrue ifFalse _ first second hfirst hsecond =>
      apply hrun
      cases o with
      | true =>
          have hbody : Awaits code (before' ++ [.branch c ifTrue ifFalse] ++ [.place ifTrue])
              (first ++ (second ++ after')) (body ++ k) := by
            apply Awaits.body hfirst
            apply hsecond.awaits_behind
            simpa using hbehind
          have hcode := hbody.append_eq
          apply Executes.branch _ (hrest _ _ hbody)
          apply finds_of_nodup hnodup
          · simpa using hcode
          · simpa using hcode
      | false =>
          have hend : Awaits code (before' ++ .branch c ifTrue ifFalse :: .place ifTrue :: first
              ++ second) after' k := by
            simpa using hbehind
          obtain ⟨before'', after'', hplace, hbody⟩ := hsecond.exists_awaits_body hend
          apply Executes.branch _ (hrest _ _ hbody)
          apply finds_of_nodup hnodup _ hplace
          simpa using hbehind.append_eq

/-- A loop goes on with its body and then with itself, or it is left. -/
theorem Awaits.executes_loop
    {body : List Stmt} (h : Awaits code before after (.loop c body :: k))
    (hnodup : (placed code).Nodup) (o : Bool)
    (hrest : ∀ before' after',
      Awaits code before' after' (if o then body ++ .loop c body :: k else k) →
        Executes before' after' os es e) :
  Executes before after (o :: os) (.test c :: es) e
  := by
  obtain ⟨before', _, after', hfirst, hbehind, hrun⟩ := h.exists_lowered hnodup
  cases hfirst with
  | @loop _ _ header inside exit round hround =>
      apply hrun
      apply Executes.place
      cases o with
      | true =>
          -- Behind the body the code jumps back to the loop, from where it executes the loop again.
          have hloop : Awaits code before' (.place header :: .branch c inside exit ::
              .place inside :: (round ++ [.jump header, .place exit]) ++ after')
              (.loop c body :: k) :=
            Awaits.body (LoweredBody.singleton (Lowered.loop hround)) hbehind
          have hcode := hloop.append_eq
          have hbody : Awaits code (before' ++ [.place header, .branch c inside exit]
              ++ [.place inside]) (round ++ (.jump header :: .place exit :: after'))
              (body ++ .loop c body :: k) := by
            apply Awaits.body hround
            apply Awaits.jump _ hloop
            simpa using hcode
          apply Executes.branch _ (hrest _ _ hbody)
          apply finds_of_nodup hnodup
          · simpa using hcode
          · simpa using hcode
      | false =>
          have hexit : Awaits code (before' ++ (.place header :: .branch c inside exit ::
              .place inside :: (round ++ [.jump header])) ++ [.place exit]) after' k := by
            simpa using hbehind
          have hcode := hexit.append_eq
          apply Executes.branch _ (hrest _ _ hexit)
          apply finds_of_nodup hnodup
          · simpa using hcode
          · simpa using hcode

/-- From a position on, code executes the statements which it awaits. -/
theorem Awaits.executes
    (h : Awaits code before after k) (hnodup : (placed code).Nodup) (os : List Bool) :
  Executes before after os (Stmt.execute k os).observations (Stmt.execute k os).ending
  := by
  induction k, os using Stmt.execute.induct generalizing before after with
  | case1 os =>
      rw [Stmt.execute]
      apply h.executes_nil hnodup
  | case2 a rest os ha =>
      obtain ⟨before', _, after', hfirst, hrest, hrun⟩ := h.exists_lowered hnodup
      cases hfirst
      apply hrun
      rw [Stmt.execute, if_pos ha]
      apply Executes.ret ha
  | case3 a rest os ha ih =>
      obtain ⟨before', _, after', hfirst, hrest, hrun⟩ := h.exists_lowered hnodup
      cases hfirst
      apply hrun
      rw [Stmt.execute, if_neg ha]
      apply Executes.act (Bool.not_eq_true _ ▸ ha) (ih hrest)
  | case4 body rest os ih =>
      obtain ⟨before', first, after', hfirst, hrest, hrun⟩ := h.exists_lowered hnodup
      cases hfirst with
      | block hbody =>
          apply hrun
          rw [Stmt.execute]
          apply ih (Awaits.body hbody hrest)
  | case5 c body otherwise rest =>
      obtain ⟨before', _, after', hfirst, hrest, hrun⟩ := h.exists_lowered hnodup
      cases hfirst
      apply hrun
      rw [Stmt.execute]
      apply Executes.wait
  | case6 c body otherwise rest os ih =>
      rw [Stmt.execute]
      apply h.executes_branch hnodup true
      intro before' after' hbody
      apply ih hbody
  | case7 c body otherwise rest os ih =>
      rw [Stmt.execute]
      apply h.executes_branch hnodup false
      intro before' after' hbody
      apply ih hbody
  | case8 c body rest =>
      obtain ⟨before', _, after', hfirst, hrest, hrun⟩ := h.exists_lowered hnodup
      cases hfirst
      apply hrun
      rw [Stmt.execute]
      apply Executes.place
      apply Executes.wait
  | case9 c body rest os ih =>
      rw [Stmt.execute]
      apply h.executes_loop hnodup true
      intro before' after' hround
      apply ih hround
  | case10 c body rest os ih =>
      rw [Stmt.execute]
      apply h.executes_loop hnodup false
      intro before' after' hrest
      apply ih hrest

/-- The code of a method runs as the method is executed. -/
theorem Method.executes_code
    (m : Method) (os : List Bool) :
  Executes [] m.code os (m.execute os).observations (m.execute os).ending
  := by
  have hbody : Awaits m.code [] (m.code ++ []) (m.body ++ []) :=
    Awaits.body (Stmt.lowered_bodyCode m.body 0) Awaits.finish
  rw [List.append_nil, List.append_nil] at hbody
  apply hbody.executes m.nodup_placed

end MethodFlow
