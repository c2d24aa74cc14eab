import MethodFlow.Proofs.Assembly.Exits

/-!
# The code does what the assembled graph does

The simulation of `Assembly.Stands.continues` the other way round: where code stands at a node, a
run of the graph from the node is a run of the code, whether it comes to an ending
(`Stands.executes`) or is cut off anywhere (`Stands.exists_leads`), and a run of the code which is
cut off is seen in the graph (`Stands.exists_run`).
-/

namespace MethodFlow

open LinearCode

namespace Assembly

variable {aₙ : Assembly} {parameters : List Parameter} {g : FlowGraph} {n m : Node}
  {before after before' after' code : List Instruction} {os : List Bool}
  {es es' done : List Observation} {e : Ending}

/-- Where a node at which the code stands does not simply lead on, the code is at its end or at a
branch, up to places. -/
theorem Stands.of_next_eq_none
    (hcode : (initial parameters).emitAll code = .ok aₙ) (hg : aₙ.Finished g)
    (hresolved : Resolved parameters g code) (happend : before ++ after = code)
    (h : Stands parameters g before after n done) (hn : (g.content n).target? .next = none) :
  done = [] ∧ ((n = .stop ∧ ∀ os, Executes before after os [] .finished)
    ∨ (g.kind n = .jump ∧ Executes before after [] [] .waiting))
  := by
  induction after generalizing before done with
  | nil =>
      rw [← happend, List.append_nil] at hcode
      obtain ⟨rfl, rfl⟩ | ⟨-, hnext⟩ := h.end hcode hg
      · exact ⟨rfl, Or.inl ⟨rfl, fun _ => Executes.stop⟩⟩
      · rw [hn] at hnext
        contradiction
  | cons i after ih =>
      have happend' : before ++ [i] ++ after = code := by simpa using happend
      cases i with
      | place l =>
          obtain hstands | ⟨-, m, hnext, -, -⟩ := h.place (happend ▸ hcode) hg
          · obtain ⟨rfl, ⟨rfl, hexecutes⟩ | ⟨hkind, hexecutes⟩⟩ := ih happend' hstands
            · exact ⟨rfl, Or.inl ⟨rfl, fun os => Executes.place (hexecutes os)⟩⟩
            · exact ⟨rfl, Or.inr ⟨hkind, Executes.place hexecutes⟩⟩
          · rw [hn] at hnext
            contradiction
      | act x =>
          cases hx : x.endsMethod with
          | false =>
              obtain ⟨hnil, -⟩ := ih happend' (h.act (happend ▸ hcode) hg hx)
              simp at hnil
          | true =>
              obtain ⟨-, hnext⟩ := h.ret (happend ▸ hcode) hg hx
              rw [hn] at hnext
              contradiction
      | branch c t f =>
          obtain ⟨a, hstage, -, ⟨rfl, rfl⟩ | ⟨-, hnext, -⟩⟩ := h.branch_cases (happend ▸ hcode) hg
          · exact ⟨rfl, Or.inr ⟨(hstage.branch (happend ▸ hcode) hg).1, Executes.wait⟩⟩
          · rw [hn] at hnext
            contradiction
      | jump l =>
          have htargets := hresolved _ _ _ _ _ happend h
          obtain ⟨before', after', hfinds⟩ :=
            exists_finds (happend ▸ htargets (List.mem_singleton_self l))
          obtain ⟨m, -, hnext, -⟩ := (h.jump (happend ▸ hcode) hg).2 before' after' hfinds
          rw [hn] at hnext
          contradiction

/-- From where it stands, the code runs as the graph goes on. -/
theorem Stands.executes
    (hcode : (initial parameters).emitAll code = .ok aₙ) (hg : aₙ.Finished g)
    (hresolved : Resolved parameters g code) (happend : before ++ after = code)
    (hstands : Stands parameters g before after n done) (h : g.Continues n os es' e) :
  ∃ es, es' = done ++ es ∧ Executes before after os es e
  := by
  induction h generalizing before after done with
  | stop os =>
      obtain ⟨rfl, ⟨-, hexecutes⟩ | ⟨hkind, -⟩⟩ :=
        hstands.of_next_eq_none hcode hg hresolved happend rfl
      · exact ⟨[], rfl, hexecutes os⟩
      · contradiction
  | @wait n hn =>
      have hnext : (g.content n).target? .next = none := by
        apply Content.target?_eq_none
        rw [FlowGraph.kind] at hn
        simp [hn, Kind.exits]
      obtain ⟨rfl, ⟨rfl, -⟩ | ⟨-, hexecutes⟩⟩ :=
        hstands.of_next_eq_none hcode hg hresolved happend hnext
      · contradiction
      · exact ⟨[], rfl, hexecutes⟩
  | step hp _ ih =>
      obtain ⟨m, hexits⟩ := hstands.exists_exit hcode hg hresolved happend
        (FlowGraph.mem_exits_of_target? hp)
      obtain rfl := Option.some.inj (hp.symm.trans hexits.target?)
      obtain ⟨es, before', after', hobservations, hleads, hstands', -⟩ := hexits.exists_leads
      obtain ⟨es'', hes'', hexecutes⟩ := ih (hleads.append_eq.trans happend) hstands'
      use es ++ es''
      constructor
      · rw [hobservations, hes'', List.nil_append, List.append_assoc]
      · apply hleads.executes hexecutes

/-- From where it stands, the code runs at least as far as a run of the graph. -/
theorem Stands.exists_leads
    (hcode : (initial parameters).emitAll code = .ok aₙ) (hg : aₙ.Finished g)
    (hresolved : Resolved parameters g code) (happend : before ++ after = code)
    (hstands : Stands parameters g before after n done) (h : g.Run n os es' m) :
  ∃ es before' after', Leads before after os es before' after' ∧ es' <+: done ++ es
  := by
  obtain ⟨route, hroute, rfl, rfl⟩ := h
  induction hroute generalizing before after done with
  | refl n => exact ⟨[], before, after, Leads.refl, List.nil_prefix⟩
  | @step n k m p route hp _ ih =>
      obtain ⟨m, hexits⟩ := hstands.exists_exit hcode hg hresolved happend
        (FlowGraph.mem_exits_of_target? hp)
      obtain rfl := Option.some.inj (hp.symm.trans hexits.target?)
      obtain ⟨es, before', after', hobservations, hleads, hstands', -⟩ := hexits.exists_leads
      obtain ⟨es'', before'', after'', hleads', hes''⟩ :=
        ih (hleads.append_eq.trans happend) hstands'
      use es ++ es'', before'', after''
      rw [FlowGraph.outcomes_cons, FlowGraph.observations_cons, hobservations]
      use hleads.trans hleads'
      rw [← List.append_assoc]
      apply (List.prefix_append_right_inj _).mpr hes''

/-- What has been done where the code stands is seen in the graph. -/
theorem Stands.exists_run_done
    (hcode : (initial parameters).emitAll code = .ok aₙ) (hg : aₙ.Finished g)
    (hresolved : Resolved parameters g code) (happend : before ++ after = code)
    (hstands : Stands parameters g before after n done) :
  ∃ m es', g.Run n [] es' m ∧ done <+: es'
  := by
  cases hnext : (g.content n).target? .next with
  | none =>
      obtain ⟨rfl, -⟩ := hstands.of_next_eq_none hcode hg hresolved happend hnext
      exact ⟨n, [], FlowGraph.Run.refl n, List.nil_prefix⟩
  | some m =>
      obtain ⟨m, hexits⟩ := hstands.exists_exit hcode hg hresolved happend
        (FlowGraph.mem_exits_of_target? hnext)
      obtain ⟨es, before', after', hobservations, -⟩ := hexits.exists_leads
      use m, (g.content n).observations ++ []
      constructor
      · apply FlowGraph.Run.step hexits.target? (FlowGraph.Run.refl m)
      · rw [hobservations, List.append_nil]
        apply List.prefix_append

/-- A run of the code from where it stands is seen in the graph. -/
theorem Stands.exists_run
    (hcode : (initial parameters).emitAll code = .ok aₙ) (hg : aₙ.Finished g)
    (hresolved : Resolved parameters g code) (happend : before ++ after = code)
    (hstands : Stands parameters g before after n done)
    (h : Leads before after os es before' after') :
  ∃ m es', g.Run n os es' m ∧ done ++ es <+: es'
  := by
  induction h generalizing n done with
  | refl => simpa using hstands.exists_run_done hcode hg hresolved happend
  | place _ ih =>
      have happend' := (List.append_assoc _ [_] _).trans happend
      obtain hstands' | ⟨rfl, k, hnext, -, hstands'⟩ := hstands.place (happend ▸ hcode) hg
      · apply ih happend' hstands'
      · obtain ⟨m, es', hrun, hes'⟩ := ih happend' hstands'
        exact ⟨m, _, FlowGraph.Run.step hnext hrun, (List.prefix_append_right_inj _).mpr hes'⟩
  | act hx _ ih =>
      have happend' := (List.append_assoc _ [_] _).trans happend
      obtain ⟨m, es', hrun, hes'⟩ := ih happend' (hstands.act (happend ▸ hcode) hg hx)
      use m, es', hrun
      rwa [List.append_assoc] at hes'
  | ret hx =>
      obtain ⟨hobservations, hnext⟩ := hstands.ret (happend ▸ hcode) hg hx
      refine ⟨.stop, _, FlowGraph.Run.step hnext (FlowGraph.Run.refl _), ?_⟩
      simp [hobservations]
  | @branch before after before' after' _ _ c t f o os es hl _ ih =>
      obtain ⟨a, hstage, -, hcases⟩ := hstands.branch_cases (happend ▸ hcode) hg
      obtain ⟨-, hobservations, hbranch⟩ := hstage.branch (happend ▸ hcode) hg
      obtain ⟨k, hstands', hk, -⟩ := hbranch o before' after' hl
      obtain ⟨m, es', hrun, hes'⟩ := ih (hl.append_eq.trans happend) hstands'
      have hstep := FlowGraph.Run.step hk hrun
      rw [hobservations] at hstep
      have hnode : g.Run a.next (o :: os) (.test c :: es') m := by
        cases o <;> apply hstep
      have hprefix : .test c :: es <+: .test c :: es' := (List.prefix_cons_inj _).mpr hes'
      obtain ⟨rfl, rfl⟩ | ⟨rfl, hnext, -⟩ := hcases
      · exact ⟨m, _, hnode, hprefix⟩
      · exact ⟨m, _, FlowGraph.Run.step hnext hnode, (List.prefix_append_right_inj _).mpr hprefix⟩
  | @jump before after before' after' _ _ l os es hl _ ih =>
      obtain ⟨rfl, hjump⟩ := hstands.jump (happend ▸ hcode) hg
      obtain ⟨k, hstands', hk, -⟩ := hjump before' after' hl
      obtain ⟨m, es', hrun, hes'⟩ := ih (hl.append_eq.trans happend) hstands'
      exact ⟨m, _, FlowGraph.Run.step hk hrun, (List.prefix_append_right_inj _).mpr hes'⟩

end Assembly

end MethodFlow
