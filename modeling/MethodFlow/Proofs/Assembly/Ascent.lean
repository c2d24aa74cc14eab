import MethodFlow.Proofs.Assembly.Exits

/-!
# Assembled graphs ascend

`FlowGraph.Climbs` says which nodes are reached from the start through nodes each of which was made
after the one before.  Where jumps back in the code go to branches which are also reached going
forward, every node of the assembled graph which is reached at all is reached so, and an edge which
does not lead to a later node leads to the stop or to a jump (`Assembly.ascends_of_reducible`).
-/

namespace MethodFlow

open LinearCode

namespace FlowGraph

/-- The node is reached from the start through nodes each of which was made after the one before. -/
inductive Climbs (g : FlowGraph) : Node → Prop where
  | start : Climbs g .start
  | step {n m : Node} (h : Climbs g n) (hedge : g.Edge n m) (hlt : n.index < m.index) : Climbs g m

/-- Every node which is reached is reached through nodes each of which was made after the one
before, and an edge which leads back leads to a jump; the stop does not count. -/
structure Ascends (g : FlowGraph) : Prop where
  climbs : ∀ n, g.Reaches .start n → n = .stop ∨ g.Climbs n
  edge : ∀ n m, g.Reaches .start n → g.Edge n m → m = .stop ∨ n.index < m.index ∨ g.kind m = .jump

variable {g : FlowGraph} {n m : Node} {p : Exit}

theorem ne_stop_of_target?
    (h : (g.content n).target? p = some m) :
  n ≠ .stop
  := by
  rintro rfl
  contradiction

theorem climbs_of_precedes
    (h : n = .stop ∨ g.Climbs n) (hp : (g.content n).target? p = some m)
    (hprecedes : n.Precedes m) :
  m = .stop ∨ g.Climbs m
  := by
  apply hprecedes.imp_right
  intro hlt
  apply Climbs.step (h.resolve_left (ne_stop_of_target? hp)) ⟨p, hp⟩ hlt

end FlowGraph

namespace Assembly

variable {aₙ : Assembly} {parameters : List Parameter} {g : FlowGraph} {n m : Node} {l : Label}
  {before after before' after' code : List Instruction} {done : List Observation}

/-- Where the code is going forward, it stands at a node to which the graph climbs. -/
theorem exists_stands_of_forward
    (hcode : (initial parameters).emitAll code = .ok aₙ) (hg : aₙ.Finished g)
    (h : Forward code before after) :
  ∃ n done, Stands parameters g before after n done ∧ (n = .stop ∨ g.Climbs n)
  := by
  induction h with
  | first =>
      obtain ⟨n, hnext, -, hprecedes, hstands⟩ := exists_first hcode hg
      use n, [], hstands
      apply FlowGraph.climbs_of_precedes (Or.inr FlowGraph.Climbs.start) hnext hprecedes
  | place h ih =>
      obtain ⟨n, done, hstands, hn⟩ := ih
      obtain hstands' | ⟨-, m, hnext, hprecedes, hstands'⟩ :=
        hstands.place (h.append_eq ▸ hcode) hg
      · exact ⟨n, done, hstands', hn⟩
      · exact ⟨m, [], hstands', FlowGraph.climbs_of_precedes hn hnext hprecedes⟩
  | act ha h ih =>
      obtain ⟨n, done, hstands, hn⟩ := ih
      exact ⟨n, _, hstands.act (h.append_eq ▸ hcode) hg ha, hn⟩
  | @target before after before' after' i l hl hbefore hfinds h ih =>
      obtain ⟨n, done, hstands, hn⟩ := ih
      cases i with
      | branch c t f =>
          obtain ⟨a, hstage, -, hcases⟩ := hstands.branch_cases (h.append_eq ▸ hcode) hg
          have hnode : a.next = .stop ∨ g.Climbs a.next := by
            obtain ⟨rfl, -⟩ | ⟨-, hnext, hprecedes⟩ := hcases
            · apply hn
            · apply FlowGraph.climbs_of_precedes hn hnext hprecedes
          obtain ⟨o, rfl⟩ : ∃ o : Bool, l = if o then t else f := by
            obtain rfl | hl := List.mem_cons.mp hl
            · exact ⟨true, rfl⟩
            · exact ⟨false, List.mem_singleton.mp hl⟩
          obtain ⟨m, hstands', hm, hprecedes⟩ :=
            (hstage.branch (h.append_eq ▸ hcode) hg).2.2 o before' after' hfinds
          exact ⟨m, [], hstands', FlowGraph.climbs_of_precedes hnode hm (hprecedes hbefore)⟩
      | jump l' =>
          obtain rfl := List.mem_singleton.mp hl
          obtain ⟨m, hstands', hm, hprecedes⟩ :=
            (hstands.jump (h.append_eq ▸ hcode) hg).2 before' after' hfinds
          exact ⟨m, [], hstands', FlowGraph.climbs_of_precedes hn hm (hprecedes hbefore)⟩
      | _ => contradiction

/-- Behind a place the code stands at the node which comes next. -/
theorem Stage.eq_landing_of_stands
    {a : Assembly} (h : Stage parameters (before ++ [.place l]) after g a)
    (hstands : Stands parameters g (before ++ [.place l]) after n done) :
  n = landing after a.graph.cells.size
  := by
  cases hstands with
  | here h' _ hstanding =>
      obtain rfl := Except.ok.inj (h.emitted.symm.trans h'.emitted)
      obtain ⟨-, hlanding, -⟩ := h.standing_of_place
      rw [hlanding] at hstanding
      apply (Prod.mk.inj hstanding).1.symm
  | branch h' _ =>
      obtain rfl := Except.ok.inj (h.emitted.symm.trans h'.emitted)
      rfl
  | stop => rfl

/-- Where a jump goes back to a branch which is reached going forward, the node is the jump of the
branch, and the graph climbs to it. -/
theorem Stands.of_goesBack
    (hcode : (initial parameters).emitAll code = .ok aₙ) (hg : aₙ.Finished g)
    (hreducible : Reducible code) (hback : GoesBack code before after)
    (h : Stands parameters g before after n done) :
  Forward code before after ∧ g.kind n = .jump ∧ (n = .stop ∨ g.Climbs n)
  := by
  obtain ⟨hforward, c, t, f, rest, rfl⟩ := hreducible before after hback
  obtain ⟨_, _, _, l, -, -, -, hfinds⟩ := hback
  obtain ⟨before, rfl⟩ := hfinds.exists_place
  have hcode' := hforward.append_eq ▸ hcode
  obtain ⟨a, hstage⟩ := exists_stage hcode' hg
  obtain rfl := hstage.eq_landing_of_stands h
  constructor
  · apply hforward
  · constructor
    · apply (hstage.branch hcode' hg).1
    · obtain ⟨n, done', hstands, hn⟩ := exists_stands_of_forward hcode hg hforward
      rwa [hstage.eq_landing_of_stands hstands] at hn

/-- The node is the start, the stop, or a node where the code stands going forward and to which the
graph climbs. -/
inductive Located (parameters : List Parameter) (g : FlowGraph) (code : List Instruction) :
    Node → Prop where
  | start : Located parameters g code .start
  | stop : Located parameters g code .stop
  | stands {n : Node} {before after : List Instruction} (hclimbs : g.Climbs n)
      (hforward : Forward code before after) (hstands : Stands parameters g before after n []) :
      Located parameters g code n

/-- Every exit of such a node is set. -/
theorem Located.exists_target?
    (hcode : (initial parameters).emitAll code = .ok aₙ) (hg : aₙ.Finished g)
    (hresolved : Resolved parameters g code) (h : Located parameters g code n) {p : Exit}
    (hp : p ∈ g.exits n) :
  ∃ m, (g.content n).target? p = some m
  := by
  cases h with
  | start =>
      obtain ⟨m, hnext, -⟩ := exists_first hcode hg
      obtain rfl := Content.eq_next_of_mem_exits hnext hp
      exact ⟨m, hnext⟩
  | stop => contradiction
  | stands _ hforward hstands =>
      obtain ⟨m, hexits⟩ := hstands.exists_exit hcode hg hresolved hforward.append_eq hp
      exact ⟨m, hexits.target?⟩

/-- An edge from such a node leads to one, which is the stop, a later node or a jump. -/
theorem Located.edge
    (hcode : (initial parameters).emitAll code = .ok aₙ) (hg : aₙ.Finished g)
    (hresolved : Resolved parameters g code) (hreducible : Reducible code)
    (h : Located parameters g code n) (hedge : g.Edge n m) :
  Located parameters g code m ∧ (m = .stop ∨ n.index < m.index ∨ g.kind m = .jump)
  := by
  obtain ⟨p, hp⟩ := hedge
  cases h with
  | start =>
      obtain ⟨k, hnext, -, hprecedes, hstands⟩ := exists_first hcode hg
      obtain rfl := Content.eq_next_of_mem_exits hnext (FlowGraph.mem_exits_of_target? hp)
      obtain rfl := Option.some.inj (hnext.symm.trans hp)
      obtain rfl | hlt := hprecedes
      · exact ⟨Located.stop, Or.inl rfl⟩
      · have hclimbs := FlowGraph.Climbs.step FlowGraph.Climbs.start ⟨.next, hnext⟩ hlt
        exact ⟨Located.stands hclimbs Forward.first hstands, Or.inr (Or.inl hlt)⟩
  | stop => contradiction
  | stands hclimbs hforward hstands =>
      obtain ⟨k, hexits⟩ := hstands.exists_exit hcode hg hresolved hforward.append_eq
        (FlowGraph.mem_exits_of_target? hp)
      obtain rfl := Option.some.inj (hp.symm.trans hexits.target?)
      obtain ⟨es, before', after', -, -, hstands', hcases⟩ := hexits.exists_leads
      obtain rfl | ⟨hlt, hforward'⟩ | hback := hcases hforward
      · exact ⟨Located.stop, Or.inl rfl⟩
      · exact ⟨Located.stands (hclimbs.step ⟨p, hp⟩ hlt) hforward' hstands', Or.inr (Or.inl hlt)⟩
      · obtain ⟨hforward', hkind, rfl | hclimbs'⟩ := hstands'.of_goesBack hcode hg hreducible hback
        · exact ⟨Located.stop, Or.inl rfl⟩
        · exact ⟨Located.stands hclimbs' hforward' hstands', Or.inr (Or.inr hkind)⟩

/-- Every node which is reached is such a node. -/
theorem located_of_reaches
    (hcode : (initial parameters).emitAll code = .ok aₙ) (hg : aₙ.Finished g)
    (hresolved : Resolved parameters g code) (hreducible : Reducible code)
    (h : g.Reaches .start n) :
  Located parameters g code n
  := by
  induction h with
  | refl => apply Located.start
  | tail _ hedge ih => apply (ih.edge hcode hg hresolved hreducible hedge).1

/-- Every slot of the assembled graph which is reached is set. -/
theorem wired_of_reducible
    (hcode : (initial parameters).emitAll code = .ok aₙ) (hg : aₙ.Finished g)
    (hresolved : Resolved parameters g code) (hreducible : Reducible code) :
  g.Wired
  := by
  intro n hn p hp
  have hlocated := located_of_reaches hcode hg hresolved hreducible hn
  apply hlocated.exists_target? hcode hg hresolved hp

/-- The assembled graph ascends. -/
theorem ascends_of_reducible
    (hcode : (initial parameters).emitAll code = .ok aₙ) (hg : aₙ.Finished g)
    (hresolved : Resolved parameters g code) (hreducible : Reducible code) :
  g.Ascends
  where
  climbs n hn := by
    cases located_of_reaches hcode hg hresolved hreducible hn with
    | start => exact Or.inr FlowGraph.Climbs.start
    | stop => exact Or.inl rfl
    | stands hclimbs _ _ => exact Or.inr hclimbs
  edge n m hn hedge :=
    ((located_of_reaches hcode hg hresolved hreducible hn).edge hcode hg hresolved hreducible
      hedge).2

end Assembly

end MethodFlow
