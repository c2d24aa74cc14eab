import MethodFlow.Proofs.Assembly.Stage
import MethodFlow.Proofs.Assembly.Steps
import MethodFlow.Proofs.LinearCode.Reading

/-!
# Where code is laid out

While code is emitted, the nodes in the order of creation hold what is met when the code is read,
divided into what happens at one node each: `Assembly.Laid`.  If the cursor is in a block, the block
is the latest node, and what happens there was met last, with no border behind it.  So whatever is
met in the code happens at one node of the finished graph, in the same order
(`Assembly.divided_of_complete`).
-/

namespace MethodFlow

open LinearCode

namespace FlowGraph

/-- What happens at the nodes of a graph, in the order of creation. -/
def parts (g : FlowGraph) : List (List Observation) :=
  g.nodes.map fun n => (g.content n).observations

variable {g g' : FlowGraph}

theorem Rewired.parts
    {P : Slot → Prop} {n : Node} (h : g.Rewired P n g') :
  g'.parts = g.parts
  := by
  rw [FlowGraph.parts, nodes_eq_of_size h.size]
  apply List.map_congr_left
  intro m _
  apply h.observations

end FlowGraph

namespace Assembly

variable {parameters : List Parameter} {a a' : Assembly} {c : Content} {g : FlowGraph}
  {ts : List Token} {code : List Instruction} {i : Instruction} {l : Label} {s : Slot} {b : Node}
  {cursor : Cursor}

theorem Grown.parts
    (h : a.Grown c g) :
  g.parts = a.graph.parts ++ [c.observations]
  := by
  rw [FlowGraph.parts, h.nodes, List.map_append, List.map_singleton, h.observations_next]
  congr 1
  apply List.map_congr_left h.observations

/-- The tokens which come before those of the block `b`, and what happens at the nodes before the
block, which is the latest node. -/
structure LaidUpTo (ts : List Token) (g : FlowGraph) (b : Node) (earlier : List Node)
    (us : List Token) : Prop where
  nodes : g.nodes = earlier ++ [b]
  notMem : b ∉ earlier
  divided : Divided us (earlier.map fun n => (g.content n).observations)
  tokens : ts = us ++ (g.content b).observations.map .item

/-- The tokens are divided into what happens at the nodes of the graph.  A block in which the cursor
is was made last, and what happens there comes last. -/
structure Laid (ts : List Token) (g : FlowGraph) (cursor : Cursor) : Prop where
  divided : Divided ts g.parts
  inside : ∀ b, cursor = .inside b → ∃ earlier us, LaidUpTo ts g b earlier us

/-- What comes up to a block is divided together with what happens there. -/
theorem LaidUpTo.laid
    {earlier : List Node} {us : List Token} (h : LaidUpTo ts g b earlier us) :
  Laid ts g (.inside b)
  where
  divided := by
    rw [FlowGraph.parts, h.nodes, List.map_append, List.map_singleton, h.tokens]
    apply h.divided.append_part
  inside b' hb' := by
    obtain rfl := Cursor.inside.inj hb'
    exact ⟨earlier, us, h⟩

theorem Laid.leave
    (h : Laid ts g cursor) (fallsFrom : Option Slot) (labels : List Label) :
  Laid ts g (.between fallsFrom labels)
  where
  divided := h.divided
  inside _ hb := by contradiction

theorem Laid.append_border
    (h : Laid ts g cursor) (fallsFrom : Option Slot) (labels : List Label) :
  Laid (ts ++ [.border]) g (.between fallsFrom labels)
  where
  divided := h.divided.append_border
  inside _ hb := by contradiction

/-- Leading slots elsewhere leaves what happens where it is. -/
theorem Laid.rewired
    {P : Slot → Prop} {n : Node} {g' : FlowGraph} (h : Laid ts g cursor)
    (hrewired : g.Rewired P n g') :
  Laid ts g' cursor
  where
  divided := by
    rw [hrewired.parts]
    apply h.divided
  inside b hb := by
    obtain ⟨earlier, us, hlaid⟩ := h.inside b hb
    use earlier, us
    constructor
    · rw [FlowGraph.nodes_eq_of_size hrewired.size, hlaid.nodes]
    · apply hlaid.notMem
    · simp only [hrewired.observations]
      apply hlaid.divided
    · rw [hrewired.observations, hlaid.tokens]

theorem Laid.refer
    (h : Laid ts a.graph cursor) (hrefer : a.refer l s = .ok a') :
  Laid ts a'.graph cursor
  := by
  obtain ⟨n, -, hexit, rfl⟩ | rfl := refer_cases hrefer
  · apply h.rewired (FlowGraph.rewired_redirect hexit n)
  · apply h

theorem Grown.laid
    (hgrown : a.Grown c g) (h : Laid ts a.graph a.cursor) :
  Laid (ts ++ c.observations.map .item) g .nowhere
  where
  divided := by
    rw [hgrown.parts]
    apply h.divided.append_part
  inside _ hb := by contradiction

/-- Whatever was met before a block was opened comes up to the block, with what happens there
already. -/
theorem Laid.openBlock
    (hsound : a.Sound) (h : Laid ts a.graph a.cursor) (hopen : a.openBlock = .ok (b, a')) :
  ∃ earlier us, LaidUpTo ts a'.graph b earlier us
  := by
  obtain ⟨hcursor, rfl⟩ | ⟨g, -, hgrown, rfl, rfl⟩ := hsound.openBlock_cases hopen
  · apply h.inside b hcursor
  · use a.graph.nodes, ts
    constructor
    · apply hgrown.nodes
    · intro hmem
      apply ne_next_of_mem hmem rfl
    · have hold : (a.graph.nodes.map fun n => (g.content n).observations) = a.graph.parts :=
        List.map_congr_left hgrown.observations
      change Divided ts (a.graph.nodes.map fun n => (g.content n).observations)
      rw [hold]
      apply h.divided
    · change ts = ts ++ (g.content a.next).observations.map .item
      rw [hgrown.observations_next]
      simp [Content.observations]

/-- An action at the end of the latest block comes last. -/
theorem LaidUpTo.extend
    {earlier : List Node} {us : List Token} (h : LaidUpTo ts g b earlier us)
    (hb : g.kind b = .block) (x : Action) :
  LaidUpTo (ts ++ [.item (.act x)]) (g.extend b x) b earlier us
  := by
  constructor
  · rw [FlowGraph.nodes_eq_of_size (g.cells_size_extend b x), h.nodes]
  · apply h.notMem
  · have hold : ∀ n ∈ earlier, ((g.extend b x).content n).observations
        = (g.content n).observations := by
      intro n hn
      rw [FlowGraph.content_extend, if_neg]
      rintro rfl
      apply h.notMem hn
    rw [List.map_congr_left hold]
    apply h.divided
  · rw [FlowGraph.content_extend, if_pos rfl, Content.observations_append hb, h.tokens,
      List.map_append, List.append_assoc]
    rfl

/-! ### Code -/

/-- An action happens where it is laid out. -/
theorem Laid.emit_act
    (hsound : a.Sound) (h : Laid ts a.graph a.cursor) {x : Action}
    (hemit : a.emit (.act x) = .ok a') :
  Laid (ts ++ [.item (.act x)]) a'.graph a'.cursor
  := by
  obtain ⟨b, a₁, hopen, hcases⟩ := emit_act_cases hemit
  obtain ⟨earlier, us, hlaid⟩ := h.openBlock hsound hopen
  have hextended := (hlaid.extend ((hsound.sound_of_openBlock hopen).block b rfl) x).laid
  obtain ⟨-, rfl⟩ | ⟨-, hexit, rfl⟩ := hcases
  · apply hextended
  · rw [FlowGraph.exits, ← FlowGraph.kind_extend a₁.graph b x] at hexit
    apply (hextended.leave none []).rewired (FlowGraph.rewired_redirect hexit .stop)

/-- Every instruction is laid out as it is read. -/
theorem Laid.emit
    (hsound : a.Sound) (h : Laid ts a.graph a.cursor) (hemit : a.emit i = .ok a') :
  Laid (ts ++ [i.token]) a'.graph a'.cursor
  := by
  cases i with
  | place l =>
      cases hemit
      apply h.append_border
  | act x => apply h.emit_act hsound hemit
  | branch x ifTrue ifFalse =>
      obtain ⟨g, a₁, a₂, hgrown, htrue, hfalse, rfl⟩ := hsound.emit_branch_cases hemit
      apply Laid.refer _ hfalse
      apply Laid.refer (a := a.landed a.next g) _ htrue
      apply hgrown.laid h
  | jump l =>
      obtain ⟨hcursor, rfl⟩ | ⟨b, a₁, a₂, hopen, hrefer, rfl⟩ := emit_jump_cases hemit
      · rw [hcursor]
        apply h.append_border
      · obtain ⟨earlier, us, hlaid⟩ := h.openBlock hsound hopen
        apply Laid.refer (hlaid.laid.append_border none []) hrefer

/-- Code of any length is laid out as it is read. -/
theorem laid
    (h : (initial parameters).emitAll code = .ok a) :
  Laid (code.map Instruction.token) a.graph a.cursor
  := by
  apply emitAll_induction (P := fun code a => Laid (code.map Instruction.token) a.graph a.cursor)
    ?first ?step h
  case first =>
    constructor
    · -- at the beginning there are the start and the stop, where nothing happens
      apply Divided.part []
      apply Divided.part []
      apply Divided.nil
    · intro _ hb
      contradiction
  case step =>
    intro code i a a' _ hsound hlaid hemit
    rw [List.map_append]
    apply hlaid.emit hsound hemit

/-- What is met in the code is divided into what happens at the nodes of the finished graph. -/
theorem divided_of_complete
    (h : (initial parameters).emitAll code = .ok a) (hcomplete : a.complete = .ok g) :
  Divided (code.map Instruction.token) g.parts
  := by
  have hsound := sound_of_emitAll h
  rw [(hsound.rewired_of_complete hcomplete).parts]
  apply (laid h).divided

end Assembly

end MethodFlow
