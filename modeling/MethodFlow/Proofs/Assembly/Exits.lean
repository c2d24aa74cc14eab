import MethodFlow.Proofs.Assembly.Meaning
import MethodFlow.Proofs.LinearCode.Forward

/-!
# What the exits of a node lead to

Where code stands at a node, each exit of the node is set, and it leads to where the code comes to
if it runs on under the outcome of the exit (`Assembly.Stands.exists_exit`).  So whatever the graph
does the code does, if the labels to which the code jumps are placed (`Assembly.Resolved`).
-/

namespace MethodFlow

open LinearCode

theorem Content.eq_next_of_mem_exits
    {c : Content} {m : Node} (h : c.target? .next = some m) {p : Exit} (hp : p ∈ c.kind.exits) :
  p = .next
  := by
  revert h hp
  cases c <;> cases p <;> simp [target?, kind, Kind.exits]

theorem Exit.exists_outcome
    {p : Exit} (hp : p ∈ Kind.jump.exits) :
  ∃ o : Bool, p = (if o then .ifTrue else .ifFalse) ∧ p.outcomes = [o]
  := by
  cases p with
  | next => contradiction
  | ifTrue => exact ⟨true, rfl, rfl⟩
  | ifFalse => exact ⟨false, rfl, rfl⟩

namespace Assembly

variable {aₙ : Assembly} {parameters : List Parameter} {g : FlowGraph} {n m : Node} {p : Exit}
  {before after before' after' code : List Instruction} {es done : List Observation}

/-- The labels to which the code may jump from where it stands are placed. -/
def Resolved (parameters : List Parameter) (g : FlowGraph) (code : List Instruction) : Prop :=
  ∀ before i after n done, before ++ i :: after = code →
    Stands parameters g before (i :: after) n done → i.targets ⊆ placed code

/-- Where the code stands at `n`, the exit `p` leads to `m`, and the code runs there under the
outcome of the exit.  Code which has been going forward goes on forward to a node made later, or
goes back, unless `m` is the stop. -/
structure Exits (parameters : List Parameter) (g : FlowGraph) (code before after : List Instruction)
    (n : Node) (done : List Observation) (p : Exit) (m : Node) : Prop where
  target? : (g.content n).target? p = some m
  exists_leads : ∃ es before' after', (g.content n).observations = done ++ es
    ∧ Leads before after p.outcomes es before' after' ∧ Stands parameters g before' after' m []
    ∧ (Forward code before after → m = .stop ∨ (n.index < m.index ∧ Forward code before' after')
      ∨ GoesBack code before' after')

/-- If the node leads on where the code stands, it leads on to there by its only exit. -/
theorem exits_of_next
    (hp : p ∈ g.exits n) (hnext : (g.content n).target? .next = some m)
    (hobservations : (g.content n).observations = done ++ es)
    (hleads : Leads before after [] es before' after')
    (hstands : Stands parameters g before' after' m [])
    (hforward : Forward code before after →
      m = .stop ∨ (n.index < m.index ∧ Forward code before' after')
        ∨ GoesBack code before' after') :
  Exits parameters g code before after n done p m
  := by
  obtain rfl := Content.eq_next_of_mem_exits hnext hp
  exact ⟨hnext, es, before', after', hobservations, hleads, hstands, hforward⟩

/-- A step of the code at the node where it stands is followed by the exit. -/
theorem Exits.of_leads
    (h : Exits parameters g code before' after' n (done ++ es) p m)
    (hleads : Leads before after [] es before' after')
    (hforward : Forward code before after → Forward code before' after') :
  Exits parameters g code before after n done p m
  := by
  obtain ⟨es', before'', after'', hobservations, hleads', hstands, hforward'⟩ := h.exists_leads
  use h.target?, es ++ es', before'', after''
  refine ⟨?_, hleads.trans hleads', hstands, fun h => hforward' (hforward h)⟩
  rw [hobservations, List.append_assoc]

/-- Where a node leads on to one made later, code which goes forward goes on forward. -/
theorem forward_of_precedes
    (hprecedes : n.Precedes m) (hforward : Forward code before after → Forward code before' after')
    (h : Forward code before after) :
  m = .stop ∨ (n.index < m.index ∧ Forward code before' after') ∨ GoesBack code before' after'
  := by
  obtain rfl | hlt := hprecedes
  · left
    rfl
  · right
    left
    exact ⟨hlt, hforward h⟩

/-- Code which goes forward to a jump goes on forward, or goes back. -/
theorem forward_of_target
    {i : Instruction} {l : Label} (hl : l ∈ i.targets)
    (hfinds : Finds l before (i :: after) before' after')
    (hprecedes : l ∉ placed before → n.Precedes m)
    (h : Forward code before (i :: after)) :
  m = .stop ∨ (n.index < m.index ∧ Forward code before' after') ∨ GoesBack code before' after'
  := by
  by_cases hbefore : l ∈ placed before
  · right
    right
    exact ⟨before, i, after, l, h, hl, hbefore, hfinds⟩
  · apply forward_of_precedes (hprecedes hbefore) _ h
    apply Forward.target hl hbefore hfinds

/-- Every exit of a node where a branch stands leads to where the code runs. -/
theorem Stands.exists_exit_branch
    {c : Expr} {t f : Label} (hcode : (initial parameters).emitAll code = .ok aₙ)
    (hg : aₙ.Finished g) (hresolved : Resolved parameters g code)
    (happend : before ++ .branch c t f :: after = code)
    (h : Stands parameters g before (.branch c t f :: after) n done) (hp : p ∈ g.exits n) :
  ∃ m, Exits parameters g code before (.branch c t f :: after) n done p m
  := by
  have htargets := hresolved _ _ _ _ _ happend h
  obtain ⟨a, hstage, hreachable, ⟨rfl, rfl⟩ | ⟨hobservations, hnext, hprecedes⟩⟩ :=
    h.branch_cases (happend ▸ hcode) hg
  · obtain ⟨hkind, hobservations, hbranch⟩ := hstage.branch (happend ▸ hcode) hg
    rw [FlowGraph.exits, hkind] at hp
    obtain ⟨o, rfl, ho⟩ := Exit.exists_outcome hp
    have hl : (if o then t else f) ∈ (Instruction.branch c t f).targets := by
      cases o <;> simp [Instruction.targets]
    obtain ⟨before', after', hfinds⟩ := exists_finds (happend ▸ htargets hl)
    obtain ⟨m, hstands, hm, hprecedes⟩ := hbranch o before' after' hfinds
    use m, hm, [.test c], before', after'
    rw [ho]
    refine ⟨hobservations, Leads.branch hfinds Leads.refl, hstands, ?_⟩
    apply forward_of_target hl hfinds hprecedes
  · use a.next
    apply exits_of_next hp hnext (by simpa using hobservations) Leads.refl
      (Stands.branch hstage hreachable)
    apply forward_of_precedes hprecedes id

/-- Every exit of a node where a jump stands leads to where the code runs. -/
theorem Stands.exists_exit_jump
    {l : Label} (hcode : (initial parameters).emitAll code = .ok aₙ) (hg : aₙ.Finished g)
    (hresolved : Resolved parameters g code) (happend : before ++ .jump l :: after = code)
    (h : Stands parameters g before (.jump l :: after) n done) (hp : p ∈ g.exits n) :
  ∃ m, Exits parameters g code before (.jump l :: after) n done p m
  := by
  have htargets := hresolved _ _ _ _ _ happend h
  have hl : l ∈ (Instruction.jump l).targets := List.mem_singleton_self l
  obtain ⟨before', after', hfinds⟩ := exists_finds (happend ▸ htargets hl)
  obtain ⟨hobservations, hjump⟩ := h.jump (happend ▸ hcode) hg
  obtain ⟨m, hstands, hm, hprecedes⟩ := hjump before' after' hfinds
  use m
  apply exits_of_next hp hm (by simpa using hobservations) (Leads.jump hfinds Leads.refl) hstands
  apply forward_of_target hl hfinds hprecedes

/-- Every exit of a node where the code stands leads to where the code runs. -/
theorem Stands.exists_exit
    (hcode : (initial parameters).emitAll code = .ok aₙ) (hg : aₙ.Finished g)
    (hresolved : Resolved parameters g code) (happend : before ++ after = code)
    (h : Stands parameters g before after n done) (hp : p ∈ g.exits n) :
  ∃ m, Exits parameters g code before after n done p m
  := by
  induction after generalizing before done with
  | nil =>
      rw [← happend, List.append_nil] at hcode
      obtain ⟨rfl, -⟩ | ⟨hobservations, hnext⟩ := h.end hcode hg
      · contradiction
      · use .stop
        apply exits_of_next hp hnext (by simpa using hobservations) Leads.refl Stands.stop
        exact fun _ => Or.inl rfl
  | cons i after ih =>
      have happend' : before ++ [i] ++ after = code := by simpa using happend
      cases i with
      | place l =>
          have hleads : Leads before (.place l :: after) [] [] (before ++ [.place l]) after :=
            Leads.place Leads.refl
          obtain hstands | ⟨hobservations, m, hnext, hprecedes, hstands⟩ :=
            h.place (happend ▸ hcode) hg
          · obtain ⟨m, hm⟩ := ih happend' hstands
            use m
            apply Exits.of_leads (by simpa using hm) hleads Forward.place
          · use m
            apply exits_of_next hp hnext (by simpa using hobservations) hleads hstands
            apply forward_of_precedes hprecedes Forward.place
      | act x =>
          cases hx : x.endsMethod with
          | false =>
              obtain ⟨m, hm⟩ := ih happend' (h.act (happend ▸ hcode) hg hx)
              use m
              apply hm.of_leads (Leads.act hx Leads.refl) (Forward.act hx)
          | true =>
              obtain ⟨hobservations, hnext⟩ := h.ret (happend ▸ hcode) hg hx
              use .stop
              apply exits_of_next hp hnext hobservations (Leads.ret hx) Stands.stop
              exact fun _ => Or.inl rfl
      | branch c t f => apply h.exists_exit_branch hcode hg hresolved happend hp
      | jump l => apply h.exists_exit_jump hcode hg hresolved happend hp

end Assembly

end MethodFlow
