import Mathlib.Data.List.Basic
import MethodFlow.Assembly
import MethodFlow.Proofs.Graph.Run

/-!
# Wiring slots

`FlowGraph.Rewired` says which slots of a graph were led to a node, everything else being as before.
Each operation of an assembly which wires slots succeeds if the slots exist, and `Assembly.land_eq`
says what comes of it where the cursor enters a node.
-/

namespace MethodFlow

theorem ok_of_bind
    {ε α β : Type} {x : Except ε α} {f : α → Except ε β} {b : β} (h : x >>= f = .ok b) :
  ∃ a, x = .ok a ∧ f a = .ok b
  := by
  cases x with
  | error e => contradiction
  | ok a => exact ⟨a, rfl, h⟩

theorem Content.observations_append
    {c : Content} (h : c.kind = .block) (x : Action) :
  (c.append x).observations = c.observations ++ [.act x]
  := by
  cases c with
  | block actions next => simp [append, observations]
  | _ => contradiction

/-- A content is determined by what it is, what happens there and where it leads. -/
theorem Content.ext
    {c c' : Content} (hkind : c.kind = c'.kind) (hobservations : c.observations = c'.observations)
    (htarget : ∀ p, c.target? p = c'.target? p) :
  c = c'
  := by
  have hnext := htarget .next
  have htrue := htarget .ifTrue
  have hfalse := htarget .ifFalse
  cases c <;> cases c' <;> simp_all [kind, observations, target?]
  case block.block =>
    apply List.map_injective_iff.mpr _ hobservations
    intro x y h
    apply Observation.act.inj h

namespace FlowGraph

/-- A graph is determined by its parameters, its size and the content of its nodes. -/
theorem ext_content
    {g g' : FlowGraph} (hparameters : g.parameters = g'.parameters)
    (hsize : g.cells.size = g'.cells.size) (hcontent : ∀ n, g.content n = g'.content n) :
  g = g'
  := by
  obtain ⟨parameters, entry, cells⟩ := g
  obtain ⟨parameters', entry', cells'⟩ := g'
  obtain rfl : parameters = parameters' := hparameters
  obtain rfl : entry = entry' := Content.start.inj (hcontent .start)
  congr 1
  apply Array.ext hsize
  intro i hi hi'
  have hcell : cells[i].content = cells'[i].content := by
    simpa [content, hi, hi'] using hcontent (.inner i)
  generalize cells[i] = cell, cells'[i] = cell' at hcell
  cases cell <;> cases cell' <;> simp_all [Cell.content]

@[simp]
theorem kind_extend
    (g : FlowGraph) (k : Node) (x : Action) (n : Node) :
  (g.extend k x).kind n = g.kind n
  := by
  rw [kind, content_extend]
  split <;> simp [kind]

@[simp]
theorem parameters_redirect
    (g : FlowGraph) (s : Slot) (n : Node) :
  (g.redirect s n).parameters = g.parameters
  := by
  unfold redirect
  split <;> rfl

theorem cells_size_extend
    (g : FlowGraph) (k : Node) (x : Action) :
  (g.extend k x).cells.size = g.cells.size
  := by
  have hsize := g.size_extend k x
  rw [size, size] at hsize
  omega

theorem content_push
    (g : FlowGraph) (cell : Cell) (n : Node) :
  content { g with cells := g.cells.push cell } n
    = if n = .inner g.cells.size then cell.content else g.content n
  := by
  cases n <;> simp [content, Array.getElem?_push]
  split <;> simp

@[simp]
theorem target?_extend
    (g : FlowGraph) (k : Node) (x : Action) (n : Node) (p : Exit) :
  ((g.extend k x).content n).target? p = (g.content n).target? p
  := by
  rw [content_extend]
  split <;> simp

variable {g g' g'' : FlowGraph} {P Q : Slot → Prop} {n : Node} {s : Slot}

/-- The graph `g'` is `g` with the slots of which `P` holds led to `n`. -/
structure Rewired (g : FlowGraph) (P : Slot → Prop) (n : Node) (g' : FlowGraph) : Prop where
  parameters : g'.parameters = g.parameters
  size : g'.cells.size = g.cells.size
  kind : ∀ m, g'.kind m = g.kind m
  observations : ∀ m, (g'.content m).observations = (g.content m).observations
  led : ∀ s, P s → (g'.content s.node).target? s.exit = some n
  kept : ∀ s, ¬ P s → (g'.content s.node).target? s.exit = (g.content s.node).target? s.exit

theorem Rewired.refl
    (g : FlowGraph) (n : Node) :
  g.Rewired (fun _ => False) n g
  where
  parameters := rfl
  size := rfl
  kind _ := rfl
  observations _ := rfl
  led _ h := h.elim
  kept _ _ := rfl

/-- Some slots were led to a node, and then some others. -/
theorem Rewired.trans
    (h : g.Rewired P n g') (h' : g'.Rewired Q n g'') :
  g.Rewired (fun s => P s ∨ Q s) n g''
  := by
  constructor
  · rw [h'.parameters, h.parameters]
  · rw [h'.size, h.size]
  · intro m
    rw [h'.kind, h.kind]
  · intro m
    rw [h'.observations, h.observations]
  · intro s hs
    by_cases hQ : Q s
    · apply h'.led s hQ
    · rw [h'.kept s hQ]
      apply h.led s (hs.resolve_right hQ)
  · intro s hs
    rw [not_or] at hs
    rw [h'.kept s hs.2, h.kept s hs.1]

/-- It does not matter how the slots are described. -/
theorem Rewired.congr
    (h : g.Rewired P n g') (hPQ : ∀ s, P s ↔ Q s) :
  g.Rewired Q n g'
  := by
  obtain rfl : P = Q := by
    funext s
    apply propext (hPQ s)
  apply h

/-- What the slots of which `P` holds are led to determines a graph. -/
theorem Rewired.unique
    (h : g.Rewired P n g') (h' : g.Rewired P n g'') :
  g' = g''
  := by
  apply ext_content (h.parameters.trans h'.parameters.symm) (h.size.trans h'.size.symm)
  intro m
  apply Content.ext
  · apply (h.kind m).trans (h'.kind m).symm
  · rw [h.observations, h'.observations]
  · intro p
    by_cases hp : P ⟨m, p⟩
    · rw [h.led ⟨m, p⟩ hp, h'.led ⟨m, p⟩ hp]
    · rw [h.kept ⟨m, p⟩ hp, h'.kept ⟨m, p⟩ hp]

/-- A redirection leads one slot elsewhere. -/
theorem rewired_redirect
    (h : s.exit ∈ g.exits s.node) (n : Node) :
  g.Rewired (· = s) n (g.redirect s n)
  := by
  constructor
  · apply parameters_redirect
  · have hsize := g.size_redirect s n
    rw [size, size] at hsize
    omega
  · apply kind_redirect
  · intro m
    rw [content_redirect]
    split
    · simp only [Content.observations_eq, Content.actions_redirect, Content.condition?_redirect]
    · rfl
  · rintro s rfl
    rw [content_redirect, if_pos rfl, Content.target?_redirect, if_pos ⟨rfl, h⟩]
  · intro s' hs'
    apply target?_redirect_of_ne hs'

end FlowGraph

namespace Cursor

@[simp]
theorem fallsFrom_inside
    (b : Node) :
  (inside b).fallsFrom = some ⟨b, .next⟩
  := rfl

@[simp]
theorem fallsFrom_between
    (s : Option Slot) (labels : List Label) :
  (between s labels).fallsFrom = s
  := rfl

@[simp]
theorem placed_inside
    (b : Node) :
  (inside b).placed = []
  := rfl

@[simp]
theorem placed_between
    (s : Option Slot) (labels : List Label) :
  (between s labels).placed = labels
  := rfl

end Cursor

namespace Assembly

variable {a : Assembly} {n : Node} {s : Slot} {l : Label}

@[simp]
theorem graph_moveTo
    (a : Assembly) (c : Cursor) :
  (a.moveTo c).graph = a.graph
  := rfl

@[simp]
theorem cursor_moveTo
    (a : Assembly) (c : Cursor) :
  (a.moveTo c).cursor = c
  := rfl

@[simp]
theorem deferred_moveTo
    (a : Assembly) (c : Cursor) :
  (a.moveTo c).deferred = a.deferred
  := rfl

@[simp]
theorem node?_moveTo
    (a : Assembly) (c : Cursor) (l : Label) :
  (a.moveTo c).node? l = a.node? l
  := rfl

theorem connect_eq
    (h : s.exit ∈ a.graph.exits s.node) (n : Node) :
  a.connect s n = .ok { a with graph := a.graph.redirect s n }
  := by
  rw [connect, FlowGraph.setTarget, if_pos h]
  rfl

/-- Connecting slots which exist leads them, and nothing else, to the node. -/
theorem foldlM_connect
    {waiting : List (Label × Slot)} (h : ∀ w ∈ waiting, w.2.exit ∈ a.graph.exits w.2.node)
    (n : Node) :
  ∃ g', waiting.foldlM (fun a (_, s) => a.connect s n) a = .ok { a with graph := g' }
    ∧ a.graph.Rewired (fun s => ∃ l, (l, s) ∈ waiting) n g'
  := by
  induction waiting generalizing a with
  | nil =>
      use a.graph, rfl
      apply (FlowGraph.Rewired.refl a.graph n).congr
      simp
  | cons w waiting ih =>
      obtain ⟨l, s⟩ := w
      have hexit : s.exit ∈ a.graph.exits s.node := h (l, s) List.mem_cons_self
      have hs := FlowGraph.rewired_redirect hexit n
      have hwaiting : ∀ w ∈ waiting, w.2.exit ∈ (a.graph.redirect s n).exits w.2.node := by
        intro w hw
        rw [FlowGraph.exits, hs.kind]
        apply h w (List.mem_cons_of_mem _ hw)
      obtain ⟨g', hg', hrest⟩ := ih (a := { a with graph := a.graph.redirect s n }) hwaiting
      use g'
      constructor
      · simp only [List.foldlM_cons, connect_eq hexit]
        apply hg'
      · apply (hs.trans hrest).congr
        intro s'
        simp [exists_or]

/-- Binding a label leads the slots which wait for it, and nothing else, to the node. -/
theorem bindLabel_eq
    (h : ∀ w ∈ a.deferred, w.2.exit ∈ a.graph.exits w.2.node) (n : Node) (l : Label) :
  ∃ g', a.bindLabel n l = .ok { a with
      graph := g'
      bindings := (l, n) :: a.bindings
      deferred := a.deferred.filter (·.1 ≠ l) }
    ∧ a.graph.Rewired (fun s => (l, s) ∈ a.deferred) n g'
  := by
  have hwaiting : ∀ w ∈ a.deferred.filter (·.1 = l), w.2.exit ∈ a.graph.exits w.2.node := by
    intro w hw
    apply h w (List.mem_of_mem_filter hw)
  obtain ⟨g', hg', hrewired⟩ := foldlM_connect (a := { a with
    bindings := (l, n) :: a.bindings, deferred := a.deferred.filter (·.1 ≠ l) }) hwaiting n
  use g', hg'
  apply hrewired.congr
  simp

/-- Binding several labels leads the slots which wait for them, and nothing else, to the node. -/
theorem foldlM_bindLabel
    (h : ∀ w ∈ a.deferred, w.2.exit ∈ a.graph.exits w.2.node) (n : Node) (labels : List Label) :
  ∃ g', labels.foldlM (·.bindLabel n) a = .ok { a with
      graph := g'
      bindings := (labels.map (·, n)).reverse ++ a.bindings
      deferred := a.deferred.filter (·.1 ∉ labels) }
    ∧ a.graph.Rewired (fun s => ∃ l ∈ labels, (l, s) ∈ a.deferred) n g'
  := by
  induction labels generalizing a with
  | nil =>
      use a.graph
      constructor
      · have hfilter : a.deferred.filter (·.1 ∉ []) = a.deferred := by simp
        rw [hfilter]
        rfl
      · apply (FlowGraph.Rewired.refl a.graph n).congr
        simp
  | cons l labels ih =>
      obtain ⟨g', hg', hfirst⟩ := bindLabel_eq h n l
      have hlabels : ∀ w ∈ a.deferred.filter (·.1 ≠ l), w.2.exit ∈ g'.exits w.2.node := by
        intro w hw
        rw [FlowGraph.exits, hfirst.kind]
        apply h w (List.mem_of_mem_filter hw)
      obtain ⟨g'', hg'', hrest⟩ := ih (a := { a with
        graph := g', bindings := (l, n) :: a.bindings, deferred := a.deferred.filter (·.1 ≠ l) })
        hlabels
      have hbindings : (labels.map (·, n)).reverse ++ (l, n) :: a.bindings
          = ((l :: labels).map (·, n)).reverse ++ a.bindings := by simp
      have hdeferred : (a.deferred.filter (·.1 ≠ l)).filter (·.1 ∉ labels)
          = a.deferred.filter (·.1 ∉ l :: labels) := by
        rw [List.filter_filter]
        congr 1
        funext w
        simp [Bool.and_comm]
      use g''
      constructor
      · rw [List.foldlM_cons, hg', ← hbindings, ← hdeferred]
        apply hg''
      · apply (hfirst.trans hrest).congr
        intro s
        constructor
        · rintro (hs | ⟨l', hl', hs⟩)
          · exact ⟨l, List.mem_cons_self, hs⟩
          · exact ⟨l', List.mem_cons_of_mem l hl', List.mem_of_mem_filter hs⟩
        · rintro ⟨l', hl', hs⟩
          by_cases hl : l' = l
          · left
            rwa [← hl]
          · right
            use l', List.mem_of_ne_of_mem hl hl'
            simpa [hl] using hs

/-- The node of a label among bindings of several labels to one node. -/
theorem lookup_reverse_map
    (labels : List Label) (n : Node) (l : Label) :
  ((labels.map (·, n)).reverse).lookup l = if l ∈ labels then some n else none
  := by
  induction labels with
  | nil => rfl
  | cons l' labels ih =>
      rw [List.map_cons, List.reverse_cons, List.lookup_append, ih]
      by_cases hl' : l = l'
      · subst hl'
        by_cases hl : l ∈ labels <;> simp [hl]
      · simp [hl', List.lookup_cons, beq_false_of_ne hl']

/-- The assembly after the cursor has entered a node, its graph being `g'` then. -/
def landed (a : Assembly) (n : Node) (g' : FlowGraph) : Assembly where
  graph := g'
  cursor := a.cursor
  bindings := (a.cursor.placed.map (·, n)).reverse ++ a.bindings
  deferred := a.deferred.filter (·.1 ∉ a.cursor.placed)

theorem node?_landed
    (a : Assembly) (n : Node) (g' : FlowGraph) (l : Label) :
  (a.landed n g').node? l = if l ∈ a.cursor.placed then some n else a.node? l
  := by
  rw [landed, node?, List.lookup_append, lookup_reverse_map]
  split <;> rfl

/-- Where the cursor enters a node, the slot through which it does so is led to the node, and so are
the slots which wait for the labels at the cursor. -/
theorem land_eq
    (hfalls : ∀ s, a.cursor.fallsFrom = some s → s.exit ∈ a.graph.exits s.node)
    (hdeferred : ∀ w ∈ a.deferred, w.2.exit ∈ a.graph.exits w.2.node) (n : Node) :
  ∃ g', a.land n = .ok (a.landed n g')
    ∧ a.graph.Rewired (fun s => a.cursor.fallsFrom = some s
      ∨ ∃ l ∈ a.cursor.placed, (l, s) ∈ a.deferred) n g'
  := by
  cases hcursor : a.cursor.fallsFrom with
  | none =>
      obtain ⟨g', hg', hrewired⟩ := foldlM_bindLabel hdeferred n a.cursor.placed
      use g'
      constructor
      · rw [land, hcursor]
        apply hg'
      · apply hrewired.congr
        simp
  | some s =>
      have hs := FlowGraph.rewired_redirect (hfalls s hcursor) n
      have hdeferred' : ∀ w ∈ a.deferred, w.2.exit ∈ (a.graph.redirect s n).exits w.2.node := by
        intro w hw
        rw [FlowGraph.exits, hs.kind]
        apply hdeferred w hw
      obtain ⟨g', hg', hrewired⟩ := foldlM_bindLabel (a := { a with
        graph := a.graph.redirect s n }) hdeferred' n a.cursor.placed
      use g'
      constructor
      · rw [land, hcursor, Option.elim, connect_eq (hfalls s hcursor)]
        apply hg'
      · apply (hs.trans hrewired).congr
        simp [eq_comm]

end Assembly

end MethodFlow
