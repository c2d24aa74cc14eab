import MethodFlow.Failure
import MethodFlow.Graph.Content
import MethodFlow.Stmt

/-!
# Flow graphs

A `FlowGraph` holds the parameters of a method, where its start leads, and its inner nodes in the
order of creation.  Everything about a node is read off `FlowGraph.content`; a handle to no node of
the graph reads as a stop.  The operations of the API are `target` and `successors` for reading,
`addBlock`, `addJump`, `append` and `setTarget` for writing, and each one that writes comes with
what it does to `content`.
-/

namespace MethodFlow

/-- An inner node of a flow graph. -/
inductive Cell where
  /-- A block runs its actions and leads on. -/
  | block (actions : List Action) (next : Option Node)
  /-- A jump evaluates its condition and leads on accordingly. -/
  | jump (condition : Expr) (ifTrue ifFalse : Option Node)
deriving Inhabited

namespace Cell

/-- What an inner node holds. -/
def content : Cell → Content
  | .block actions next => .block actions next
  | .jump condition ifTrue ifFalse => .jump condition ifTrue ifFalse

/-- The inner node with one exit led elsewhere. -/
def redirect : Cell → Exit → Node → Cell
  | .block actions _, .next, m => .block actions (some m)
  | .jump condition _ ifFalse, .ifTrue, m => .jump condition (some m) ifFalse
  | .jump condition ifTrue _, .ifFalse, m => .jump condition ifTrue (some m)
  | c, _, _ => c

/-- The inner node with one more action. -/
def append : Cell → Action → Cell
  | .block actions next, a => .block (actions ++ [a]) next
  | c, _ => c

@[simp]
theorem content_redirect
    (c : Cell) (p : Exit) (m : Node) :
  (c.redirect p m).content = c.content.redirect p m
  := by
  cases c <;> cases p <;> rfl

@[simp]
theorem content_append
    (c : Cell) (a : Action) :
  (c.append a).content = c.content.append a
  := by
  cases c <;> rfl

end Cell

/-- The flow graph of a method. -/
structure FlowGraph where
  /-- The parameters, which have values when the method starts. -/
  parameters : List Parameter
  /-- Where the start leads. -/
  entry : Option Node
  /-- The inner nodes in the order of creation. -/
  cells : Array Cell
deriving Inhabited

namespace FlowGraph

/-- The flow graph whose start leads nowhere and which has no inner node. -/
def empty (parameters : List Parameter) : FlowGraph where
  parameters
  entry := none
  cells := #[]

/-- The number of nodes, reachable or not. -/
def size (g : FlowGraph) : Nat :=
  g.cells.size + 2

/-- What a node holds. -/
def content (g : FlowGraph) : Node → Content
  | .start => .start g.entry
  | .stop => .stop
  | .inner i => (g.cells[i]?).elim .stop Cell.content

/-- What a node is. -/
def kind (g : FlowGraph) (n : Node) : Kind :=
  (g.content n).kind

/-- The exits of a node, in the order in which they are followed. -/
def exits (g : FlowGraph) (n : Node) : List Exit :=
  (g.kind n).exits

/-! ### Reading -/

/-- Where a slot leads.  It fails when the node has no such slot, or has it and it is not set. -/
def target (g : FlowGraph) (s : Slot) : Except Failure Node :=
  match (g.content s.node).target? s.exit with
  | some m => .ok m
  | none =>
    if s.exit ∈ g.exits s.node then
      .error (.unsetSlot (g.kind s.node) s.exit)
    else
      .error (.noSuchSlot (g.kind s.node) s.exit)

/-- The nodes a node leads to, in the order of its exits.  It fails at the first exit not set. -/
def successors (g : FlowGraph) (n : Node) : Except Failure (List Node) :=
  (g.exits n).mapM fun p => g.target ⟨n, p⟩

theorem target_eq_ok_iff
    {g : FlowGraph} {s : Slot} {m : Node} :
  g.target s = .ok m ↔ (g.content s.node).target? s.exit = some m
  := by
  unfold target
  split
  · simp_all
  · split <;> simp_all

theorem target_eq_error_iff
    {g : FlowGraph} {s : Slot} (h : s.exit ∈ g.exits s.node) {e : Failure} :
  g.target s = .error e
    ↔ (g.content s.node).target? s.exit = none ∧ e = .unsetSlot (g.kind s.node) s.exit
  := by
  unfold target
  split
  · simp_all
  · simp_all [eq_comm]

theorem target_of_unset
    {g : FlowGraph} {n : Node} {p : Exit} (hp : p ∈ g.exits n)
    (h : (g.content n).target? p = none) :
  g.target ⟨n, p⟩ = .error (.unsetSlot (g.kind n) p)
  := by
  apply (target_eq_error_iff hp).mpr
  exact ⟨h, rfl⟩

/-! ### Writing -/

/-- Adds an empty block which leads nowhere yet. -/
def addBlock (g : FlowGraph) : Node × FlowGraph :=
  (.inner g.cells.size, { g with cells := g.cells.push (.block [] none) })

/-- Adds a jump on a condition which leads nowhere yet. -/
def addJump (g : FlowGraph) (condition : Expr) : Node × FlowGraph :=
  (.inner g.cells.size, { g with cells := g.cells.push (.jump condition none none) })

/-- The graph with a slot led elsewhere.  A graph without the slot is left as it is. -/
def redirect (g : FlowGraph) (s : Slot) (m : Node) : FlowGraph :=
  match s.node, s.exit with
  | .start, .next => { g with entry := some m }
  | .inner i, p => { g with cells := g.cells.modify i (·.redirect p m) }
  | _, _ => g

/-- Leads a slot to a node, whatever it led to before.  It fails when the node has no such
slot. -/
def setTarget (g : FlowGraph) (s : Slot) (m : Node) : Except Failure FlowGraph :=
  if s.exit ∈ g.exits s.node then
    .ok (g.redirect s m)
  else
    .error (.noSuchSlot (g.kind s.node) s.exit)

/-- The graph with one more action in a block.  A graph without the block is left as it is. -/
def extend (g : FlowGraph) (n : Node) (a : Action) : FlowGraph :=
  match n with
  | .inner i => { g with cells := g.cells.modify i (·.append a) }
  | _ => g

/-- Adds an action at the end of a block.  It fails when the node is no block. -/
def append (g : FlowGraph) (n : Node) (a : Action) : Except Failure FlowGraph :=
  if g.kind n = .block then
    .ok (g.extend n a)
  else
    .error (.notBlock (g.kind n))

/-- The content of each node after a redirection. -/
theorem content_redirect
    (g : FlowGraph) (s : Slot) (m n : Node) :
  (g.redirect s m).content n
    = if n = s.node then (g.content n).redirect s.exit m else g.content n
  := by
  obtain ⟨k, p⟩ := s
  cases k <;> cases p <;> cases n <;>
    simp [redirect, content, Content.redirect, Array.getElem?_modify]
  all_goals
    rename_i i j
    by_cases h : i = j
    · subst h
      cases g.cells[i]? <;> simp [Content.redirect]
    · simp [h, Ne.symm h]

/-- A redirection leads no other slot elsewhere. -/
theorem target?_redirect_of_ne
    {g : FlowGraph} {s : Slot} {m n : Node} {p : Exit} (h : ⟨n, p⟩ ≠ s) :
  ((g.redirect s m).content n).target? p = (g.content n).target? p
  := by
  rw [content_redirect]
  split
  case isTrue hn =>
    rw [Content.target?_redirect, if_neg]
    rintro ⟨rfl, -⟩
    apply h
    rw [hn]
  case isFalse => rfl

theorem content_extend
    (g : FlowGraph) (k : Node) (a : Action) (n : Node) :
  (g.extend k a).content n = if n = k then (g.content n).append a else g.content n
  := by
  cases k <;> cases n <;> simp [extend, content, Content.append, Array.getElem?_modify]
  rename_i i j
  by_cases h : i = j
  · subst h
    cases g.cells[i]? <;> simp [Content.append]
  · simp [h, Ne.symm h]

@[simp]
theorem size_redirect
    (g : FlowGraph) (s : Slot) (m : Node) :
  (g.redirect s m).size = g.size
  := by
  unfold redirect
  split <;> simp [size]

@[simp]
theorem size_extend
    (g : FlowGraph) (n : Node) (a : Action) :
  (g.extend n a).size = g.size
  := by
  unfold extend
  split <;> simp [size]

@[simp]
theorem kind_redirect
    (g : FlowGraph) (s : Slot) (m n : Node) :
  (g.redirect s m).kind n = g.kind n
  := by
  simp only [kind, content_redirect]
  split <;> simp

/-- A slot is set exactly by redirecting a slot which its node has. -/
theorem setTarget_eq_ok_iff
    {g g' : FlowGraph} {s : Slot} {m : Node} :
  g.setTarget s m = .ok g' ↔ s.exit ∈ g.exits s.node ∧ g' = g.redirect s m
  := by
  unfold setTarget
  split <;> simp_all [eq_comm]

end FlowGraph

end MethodFlow
