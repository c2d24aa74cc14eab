import Mathlib.Logic.Function.Iterate
import MethodFlow.Pass.Catalogue
import MethodFlow.Proofs.Graph.Agreement

/-!
# Sequences of passes

A pass of the library fails exactly if the check of the graph fails, and if none does, the check
finds the same before and after each pass.  So what a run of passes finds depends only on how often
the check is among them (`Catalogue.run_known`).
-/

namespace MethodFlow

namespace Job

variable {α β : Type} {w w' : Workspace} {e : Failure}

theorem bind_of_ok
    {x : Job α} {a : α} (h : x w = .ok a w') (f : α → Job β) :
  (x >>= f) w = f a w'
  := by
  change EStateM.bind x f w = _
  simp only [EStateM.bind, h]

theorem bind_of_error
    {x : Job α} (h : x w = .error e w') (f : α → Job β) :
  (x >>= f) w = .error e w'
  := by
  change EStateM.bind x f w = _
  simp only [EStateM.bind, h]

/-- Bypassing the empty blocks changes the graph and says how many blocks were bypassed. -/
theorem bypass_of_ok
    {blocks : List Node} (h : w.graph.bypass.blocks = .ok blocks) :
  bypass w
    = .ok (!blocks.isEmpty) { w with
      graph := w.graph.bypass.graph
      log := w.log ++ [.bypassed blocks.length] }
  := by
  have hchanged := Bypass.Outcome.changed_of_ok h
  change (do
    let blocks ← MonadExcept.ofExcept w.graph.bypass.blocks
    log (.bypassed blocks.length)
    MonadExcept.ofExcept w.graph.bypass.changed : Job Bool)
      { w with graph := w.graph.bypass.graph } = _
  rw [h, hchanged]
  rfl

theorem bypass_of_error
    (h : w.graph.bypass.blocks = .error e) :
  bypass w = .error e { w with graph := w.graph.bypass.graph }
  := by
  change (MonadExcept.ofExcept w.graph.bypass.blocks >>= _ : Job Bool)
    { w with graph := w.graph.bypass.graph } = _
  rw [h]
  rfl

theorem check_of_ok
    {findings : List Finding} (h : w.graph.unassignedReads = .ok findings) :
  check w = .ok findings { w with log := w.log ++ [.checked findings.length] }
  := by
  change (MonadExcept.ofExcept w.graph.unassignedReads >>= _ : Job (List Finding)) w = _
  rw [h]
  rfl

theorem check_of_error
    (h : w.graph.unassignedReads = .error e) :
  check w = .error e w
  := by
  change (MonadExcept.ofExcept w.graph.unassignedReads >>= _ : Job (List Finding)) w = _
  rw [h]
  rfl

end Job

namespace Pass

variable {w : Workspace} {e : Failure}

/-- The pass which bypasses empty blocks finds nothing. -/
theorem run_emptyBlocks
    {blocks : List Node} (h : w.graph.bypass.blocks = .ok blocks) :
  emptyBlocks.run w
    = .ok [] { w with
      graph := w.graph.bypass.graph
      log := w.log
        ++ [.bypassed blocks.length, .transformed emptyBlocks.name (!blocks.isEmpty)] }
  := by
  change (Job.bypass >>= _ : Job (List Finding)) w = _
  rw [Job.bind_of_ok (Job.bypass_of_ok h)]
  change EStateM.Result.ok [] _ = _
  dsimp only
  rw [List.append_assoc]
  rfl

/-- The pass which checks definite assignment keeps the graph. -/
theorem run_definiteAssignment
    {findings : List Finding} (h : w.graph.unassignedReads = .ok findings) :
  definiteAssignment.run w
    = .ok findings { w with
      log := w.log
        ++ [.checked findings.length, .reported definiteAssignment.name findings.length] }
  := by
  change (Job.check >>= _ : Job (List Finding)) w = _
  rw [Job.bind_of_ok (Job.check_of_ok h)]
  change EStateM.Result.ok findings _ = _
  dsimp only
  rw [List.append_assoc]
  rfl

end Pass

namespace Catalogue

variable {c : Catalogue} {name : String} {names : List String} {p : Pass} {w w' : Workspace}

@[simp]
theorem run_nil
    (c : Catalogue) (w : Workspace) :
  c.run [] w = .ok [] w
  := rfl

theorem run_of_unknown
    (h : c.find? name = none) (names : List String) (w : Workspace) :
  c.run (name :: names) w = .error (.unknownPass name) w
  := by
  rw [run, h]
  rfl

/-- A run goes on where the pass of the first name ends. -/
theorem run_cons_of_ok
    {first : List Finding} (h : c.find? name = some p) (hp : p.run w = .ok first w')
    (names : List String) :
  c.run (name :: names) w
    = match c.run names w' with
      | .ok rest w'' => .ok (first ++ rest) w''
      | .error e w'' => .error e w''
  := by
  rw [run, h]
  change (p.run >>= fun first => c.run names >>= fun rest => pure (first ++ rest)) w = _
  rw [Job.bind_of_ok hp]
  cases hrest : c.run names w' with
  | ok rest w'' =>
      rw [Job.bind_of_ok hrest]
      rfl
  | error e w'' => rw [Job.bind_of_error hrest]

theorem run_cons_of_error
    {e : Failure} (h : c.find? name = some p) (hp : p.run w = .error e w') (names : List String) :
  c.run (name :: names) w = .error e w'
  := by
  rw [run, h]
  change (p.run >>= fun first => c.run names >>= fun rest => pure (first ++ rest)) w = _
  rw [Job.bind_of_error hp]

/-- What a catalogue of the passes of the library finds by a name is the pass with that name. -/
theorem eq_of_find?
    (hc : c.passes.Perm known.passes) (h : c.find? name = some p) :
  (p = .emptyBlocks ∨ p = .definiteAssignment) ∧ p.name = name
  := by
  constructor
  · have hmem : p ∈ known.passes := hc.mem_iff.mp (List.mem_of_find?_eq_some h)
    simpa [known] using hmem
  · simpa using List.find?_some h

/-- Where the check of a graph fails, every pass of the library does. -/
theorem exists_error_of_find?
    (hc : c.passes.Perm known.passes) {e : Failure} (h : w.graph.unassignedReads = .error e)
    (hfind : c.find? name = some p) :
  ∃ w', p.run w = .error e w'
  := by
  obtain ⟨rfl | rfl, -⟩ := eq_of_find? hc hfind
  · have hblocks := w.graph.blocks_of_unassignedReads
    rw [h] at hblocks
    use { w with graph := w.graph.bypass.graph }
    change (Job.bypass >>= _ : Job (List Finding)) w = _
    rw [Job.bind_of_error (Job.bypass_of_error hblocks)]
  · use w
    change (Job.check >>= _ : Job (List Finding)) w = _
    rw [Job.bind_of_error (Job.check_of_error h)]

/-- Where the check of a graph does not fail, no pass of the library does.  Only the one which
bypasses empty blocks changes the graph, and only the other one finds anything. -/
theorem exists_run_of_find?
    (hc : c.passes.Perm known.passes) {findings : List Finding}
    (h : w.graph.unassignedReads = .ok findings) (hfind : c.find? name = some p) :
  ∃ w', p.run w = .ok (if name = Pass.definiteAssignment.name then findings else []) w'
    ∧ w'.graph = (if name = Pass.emptyBlocks.name then w.graph.bypass.graph else w.graph)
  := by
  obtain ⟨rfl | rfl, rfl⟩ := eq_of_find? hc hfind
  · have hblocks := w.graph.blocks_of_unassignedReads
    rw [h] at hblocks
    obtain ⟨blocks, hblocks⟩ := hblocks
    rw [if_neg (by decide), if_pos rfl, Pass.run_emptyBlocks hblocks]
    exact ⟨_, rfl, rfl⟩
  · rw [if_pos rfl, if_neg (by decide), Pass.run_definiteAssignment h]
    exact ⟨_, rfl, rfl⟩

/-- Where the check of the graph does not fail, a run stops only at a name without a pass. -/
theorem run_of_ok
    (hc : c.passes.Perm known.passes) {findings : List Finding}
    (h : w.graph.unassignedReads = .ok findings) (names : List String) :
  ∃ w', w'.graph = (fun g : FlowGraph => g.bypass.graph)^[
      (names.takeWhile c.contains).count Pass.emptyBlocks.name] w.graph
    ∧ match names.find? (!c.contains ·) with
      | some name => c.run names w = .error (.unknownPass name) w'
      | none => c.run names w
          = .ok (List.replicate (names.count Pass.definiteAssignment.name) findings).flatten w'
  := by
  induction names generalizing w with
  | nil => exact ⟨w, rfl, rfl⟩
  | cons name names ih =>
      cases hfind : c.find? name with
      | none =>
          have hunknown : c.contains name = false := by rw [contains, hfind, Option.isSome_none]
          use w
          rw [List.takeWhile_cons_of_neg (by simp [hunknown]),
            List.find?_cons_of_pos (by simp [hunknown])]
          exact ⟨rfl, run_of_unknown hfind names w⟩
      | some p =>
          have hknown : c.contains name = true := by rw [contains, hfind, Option.isSome_some]
          obtain ⟨w₁, hrun, hgraph⟩ := exists_run_of_find? hc h hfind
          have h₁ : w₁.graph.unassignedReads = .ok findings := by
            rw [hgraph]
            split
            · rw [w.graph.shortcut_bypass.unassignedReads, h]
            · apply h
          obtain ⟨w', hgraph', hrest⟩ := ih h₁
          use w'
          rw [List.takeWhile_cons_of_pos hknown, List.find?_cons_of_neg (by simp [hknown])]
          constructor
          · rw [hgraph', hgraph, List.count_cons]
            by_cases hname : name = Pass.emptyBlocks.name <;> simp [hname]
          · cases hunknown : names.find? (!c.contains ·) with
            | some unknown =>
                rw [hunknown] at hrest
                rw [run_cons_of_ok hfind hrun, hrest]
            | none =>
                rw [hunknown] at hrest
                rw [run_cons_of_ok hfind hrun, hrest, List.count_cons]
                by_cases hname : name = Pass.definiteAssignment.name <;>
                  simp [hname, List.replicate_succ]

/-- Passes of the library may be run in any order and as often as one likes.  A run fails where the
check of the graph fails, or at the first name without a pass; otherwise every check finds what the
check of the graph finds before any pass is run. -/
theorem run_known
    {c : Catalogue} (hc : c.passes.Perm known.passes) (names : List String) (w : Workspace) :
  let cut := names.takeWhile c.contains
  (∀ e, cut ≠ [] → w.graph.unassignedReads = .error e → ∃ w', c.run names w = .error e w')
    ∧ ((cut = [] ∨ ∃ findings, w.graph.unassignedReads = .ok findings) →
      ∃ findings w', (cut ≠ [] → w.graph.unassignedReads = .ok findings)
        ∧ w'.graph
          = (fun g : FlowGraph => g.bypass.graph)^[cut.count Pass.emptyBlocks.name] w.graph
        ∧ match names.find? (!c.contains ·) with
          | some name => c.run names w = .error (.unknownPass name) w'
          | none => c.run names w
              = .ok (List.replicate (names.count Pass.definiteAssignment.name) findings).flatten w')
  := by
  dsimp only
  cases names with
  | nil =>
      constructor
      · intro e hcut
        contradiction
      · intro _
        exact ⟨[], w, fun hcut => absurd rfl hcut, rfl, rfl⟩
  | cons name names =>
      cases hfind : c.find? name with
      | none =>
          have hunknown : c.contains name = false := by rw [contains, hfind, Option.isSome_none]
          rw [List.takeWhile_cons_of_neg (by simp [hunknown]),
            List.find?_cons_of_pos (by simp [hunknown])]
          constructor
          · intro e hcut
            contradiction
          · intro _
            exact ⟨[], w, fun hcut => absurd rfl hcut, rfl, run_of_unknown hfind names w⟩
      | some p =>
          have hknown : c.contains name = true := by rw [contains, hfind, Option.isSome_some]
          constructor
          · intro e _ h
            obtain ⟨w', hrun⟩ := exists_error_of_find? hc h hfind
            exact ⟨w', run_cons_of_error hfind hrun names⟩
          · rintro (hcut | ⟨findings, h⟩)
            · rw [List.takeWhile_cons_of_pos hknown] at hcut
              contradiction
            · obtain ⟨w', hgraph, hrun⟩ := run_of_ok hc h (name :: names)
              exact ⟨findings, w', fun _ => h, hgraph, hrun⟩

/-- The passes of the library, the check registered first. -/
def checkFirst : Catalogue :=
  ⟨[.definiteAssignment, .emptyBlocks]⟩

/-- A read of `x`, which has no value, behind an empty block. -/
def readBehindEmpty : FlowGraph where
  parameters := []
  entry := some (.inner 0)
  cells := #[.block [] (some (.inner 1)), .block [.eval (.read ⟨0, "x"⟩)] (some .stop)]

/-- The read is found by either run of the check, before the empty block is bypassed and after. -/
theorem run_known_readBehindEmpty :
  checkFirst.passes.Perm known.passes
    ∧ ∃ w', w'.graph = readBehindEmpty.bypass.graph
      ∧ checkFirst.run ["definite-assignment", "eliminate-empty-blocks", "definite-assignment"]
          (.of readBehindEmpty)
        = .ok [.unassigned "x", .unassigned "x"] w'
  := by
  have hc : checkFirst.passes.Perm known.passes := by
    apply List.Perm.swap
  have hreads : readBehindEmpty.unassignedReads = .ok [.unassigned "x"] := by decide
  obtain ⟨-, hrun⟩ := run_known hc
    ["definite-assignment", "eliminate-empty-blocks", "definite-assignment"] (.of readBehindEmpty)
  obtain ⟨findings, w', hfindings, hgraph, hresult⟩ := hrun (Or.inr ⟨_, hreads⟩)
  cases hreads.symm.trans (hfindings (by decide))
  exact ⟨hc, w', hgraph, hresult⟩

end Catalogue

end MethodFlow
