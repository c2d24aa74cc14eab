import MethodFlow.Proofs.Assembly.Completion
import MethodFlow.Proofs.Assembly.Tracing

/-!
# Assembled code executes as linear code does

Code of any kind which is assembled and completed gives a graph in which just that happens which
happens when the code is run from front to back (`Assembly.complete_preserves_execution`).  That a
construction can be completed says that every label is placed to which the code jumps from a
position which is reached (`Assembly.resolved_of_complete`).
-/

namespace MethodFlow

open LinearCode

namespace Assembly

variable {a aₙ : Assembly} {parameters : List Parameter} {g : FlowGraph}
  {code : List Instruction} {os : List Bool} {es : List Observation} {e : Ending}

/-- In a construction which is completed, slots wait only for the labels at the cursor. -/
theorem Sound.mem_placed_of_complete
    (h : a.Sound) (hcomplete : a.complete = .ok g) {l : Label} {s : Slot}
    (hs : (l, s) ∈ a.deferred) :
  l ∈ a.cursor.placed
  := by
  cases hreachable : a.cursor.isReachable with
  | true =>
      obtain ⟨g', hland, -⟩ := land_eq
        (fun s hs => h.has s (mem_openSlots.mpr (Or.inl hs)))
        (fun w hw => h.has w.2 (mem_openSlots.mpr (Or.inr ⟨w.1, hw⟩))) .stop
      rw [Assembly.complete, close, if_pos hreachable, hland] at hcomplete
      have hnil := (result_eq_ok_iff.mp hcomplete).1
      simpa using List.filter_eq_nil_iff.mp hnil (l, s) hs
  | false =>
      rw [Assembly.complete, close, if_neg (by simp [hreachable])] at hcomplete
      have hnil := (result_eq_ok_iff.mp hcomplete).1
      rw [deferred_moveTo] at hnil
      rw [hnil] at hs
      contradiction

/-- In a construction which is completed, the code jumps only to labels which are placed. -/
theorem resolved_of_complete
    (hcode : (initial parameters).emitAll code = .ok aₙ) (hg : aₙ.Finished g)
    (hplaced : ∀ l s, (l, s) ∈ aₙ.deferred → l ∈ aₙ.cursor.placed) :
  Resolved parameters g code
  := by
  intro before i after n done happend hstands l hl
  have hstage : ∃ a, Stage parameters before (i :: after) g a ∧ a.cursor.isReachable = true := by
    cases hstands with
    | here h hreachable _ => exact ⟨_, h, hreachable⟩
    | branch h hreachable => exact ⟨_, h, hreachable⟩
  obtain ⟨a, hstage, hreachable⟩ := hstage
  have hnames : Names code l := by
    cases i with
    | branch c t f => apply Names.branch happend (by simpa [Instruction.targets] using hl)
    | jump l' =>
        obtain rfl := List.mem_singleton.mp hl
        apply Names.jump happend ((isReachable_iff hstage.emitted).mp hreachable)
    | _ => contradiction
  by_contra hmissing
  -- Some slot waits for the label until the end.
  obtain ⟨s, hs⟩ := exists_mem_deferred hcode ⟨hnames, hmissing⟩
  obtain ⟨a', ha', -, hevolves⟩ := (sound_initial parameters).emitAll code
  obtain rfl := Except.ok.inj (ha'.symm.trans hcode)
  have hhome : a'.home [] l = none := hevolves.home [] l hmissing
  apply (home_eq_none_iff.mp hhome).1 (hplaced l s hs)

/-- Where the code comes to an ending, the graph comes to it, and the other way round. -/
theorem executes_iff_executes
    (hcode : (initial parameters).emitAll code = .ok aₙ) (hg : aₙ.Finished g)
    (hresolved : Resolved parameters g code) :
  g.Executes os es e ↔ LinearCode.Executes [] code os es e
  := by
  obtain ⟨n, hnext, hobservations, -, hstands⟩ := exists_first hcode hg
  rw [FlowGraph.executes_iff]
  constructor
  · intro h
    generalize hstart : Node.start = k at h
    cases h with
    | stop => contradiction
    | wait hn =>
        subst hstart
        contradiction
    | step hp h =>
        subst hstart
        obtain rfl := Content.eq_next_of_mem_exits hnext (FlowGraph.mem_exits_of_target? hp)
        obtain rfl := Option.some.inj (hnext.symm.trans hp)
        obtain ⟨es, rfl, hexecutes⟩ := hstands.executes hcode hg hresolved rfl h
        rw [hobservations]
        apply hexecutes
  · intro h
    have hstep := FlowGraph.Continues.step hnext (hstands.continues hcode hg rfl h)
    rwa [hobservations] at hstep

/-- What may be seen of the graph when a run is cut off may be seen of the code, and the other way
round. -/
theorem observes_iff_observes
    (hcode : (initial parameters).emitAll code = .ok aₙ) (hg : aₙ.Finished g)
    (hresolved : Resolved parameters g code) :
  g.Observes os es ↔ LinearCode.Observes [] code os es
  := by
  obtain ⟨n, hnext, hobservations, -, hstands⟩ := exists_first hcode hg
  constructor
  · rintro ⟨used, es', k, hused, ⟨route, hroute, rfl, rfl⟩, hes⟩
    cases hroute with
    | refl => exact ⟨[], [], [], code, List.nil_prefix, Leads.refl, hes⟩
    | @step _ m _ p route hp hroute =>
        obtain rfl := Content.eq_next_of_mem_exits hnext (FlowGraph.mem_exits_of_target? hp)
        obtain rfl := Option.some.inj (hnext.symm.trans hp)
        obtain ⟨es'', before', after', hleads, hes''⟩ :=
          hstands.exists_leads hcode hg hresolved rfl ⟨route, hroute, rfl, rfl⟩
        rw [FlowGraph.outcomes_cons] at hused
        rw [FlowGraph.observations_cons, hobservations] at hes
        exact ⟨_, es'', before', after', hused, hleads, hes.trans hes''⟩
  · rintro ⟨used, es', before', after', hused, hleads, hes⟩
    obtain ⟨m, es'', hrun, hes''⟩ := hstands.exists_run hcode hg hresolved rfl hleads
    have hstep := FlowGraph.Run.step hnext hrun
    rw [hobservations] at hstep
    exact ⟨_, _, m, hused, hstep, hes.trans hes''⟩

/-- The graph of a construction which is completed is executed as the code is run from front to
back, whatever the outcomes of the conditions are, also along runs without end. -/
theorem complete_preserves_execution
    (h : (initial parameters).emitAll code >>= complete = .ok g) (os : List Bool)
    (es : List Observation) :
  (∀ e, g.Executes os es e ↔ LinearCode.Executes [] code os es e)
    ∧ (g.Observes os es ↔ LinearCode.Observes [] code os es)
  := by
  obtain ⟨a, hcode, hsound, -⟩ := (sound_initial parameters).emitAll code
  rw [hcode] at h
  have hplaced : ∀ l s, (l, s) ∈ a.deferred → l ∈ a.cursor.placed :=
    fun l s hs => hsound.mem_placed_of_complete h hs
  obtain ⟨g', hcomplete, hg⟩ := hsound.complete hplaced
  obtain rfl := Except.ok.inj (hcomplete.symm.trans h)
  have hresolved := resolved_of_complete hcode hg hplaced
  constructor
  · intro e
    apply executes_iff_executes hcode hg hresolved
  · apply observes_iff_observes hcode hg hresolved

/-- Linear code with a jump into the middle of a loop. -/
def loopWithTwoEntries : List Instruction :=
  [.branch (.bool true) ⟨0⟩ ⟨1⟩, .place ⟨0⟩, .act (.eval (.int 1)), .place ⟨1⟩,
    .branch (.bool false) ⟨0⟩ ⟨2⟩, .place ⟨2⟩]

/-- The flow graph of this code is executed as the code. -/
theorem complete_preserves_execution_loopWithTwoEntries :
  ∃ g, (initial []).emitAll loopWithTwoEntries >>= complete = .ok g
    ∧ ∀ os es, (∀ e, g.Executes os es e ↔ LinearCode.Executes [] loopWithTwoEntries os es e)
      ∧ (g.Observes os es ↔ LinearCode.Observes [] loopWithTwoEntries os es)
  := by
  have h : (initial []).emitAll loopWithTwoEntries >>= complete = .ok {
      parameters := []
      entry := some (.inner 0)
      cells := #[
        .jump (.bool true) (some (.inner 1)) (some (.inner 2)),
        .block [.eval (.int 1)] (some (.inner 2)),
        .jump (.bool false) (some (.inner 1)) (some .stop)] } := by rfl
  exact ⟨_, h, complete_preserves_execution h⟩

end Assembly

end MethodFlow
