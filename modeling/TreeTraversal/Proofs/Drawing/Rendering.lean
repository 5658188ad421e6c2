import TreeTraversal.Proofs.Drawing.Exact
import TreeTraversal.Proofs.Plan.ShapeCheck
import TreeTraversal.Traverse

/-!
# Drawing a tree in one call

With texts that are not empty, a tree of linked nodes or of wide ones is drawn as it should be by a
single call: the plan is made, the walk completes, and all levels are closed at its end.
-/

namespace TreeTraversal

variable {g : GlyphTexts} {s : Strategy} {root : Node Value}

/-- None of the texts is empty. -/
def GlyphTexts.Visible (g : GlyphTexts) : Prop :=
  ∀ text ∈ [g.last, g.branch, g.pipe, g.blank], text ≠ ""

theorem GlyphTexts.Visible.issues_eq_nil (h : g.Visible) : g.glyphs.issues = [] := by
  apply Glyphs.issues_eq_nil
  intro name
  cases name <;> exact ⟨_, rfl, h _ (by simp)⟩

namespace Directory

theorem Drawable.rootIssues_eq_nil (h : Drawable s root) : Plan.rootIssues s (some root) = [] := by
  cases h with
  | chained huniform =>
    exact (Plan.shapeIssues_of_needsLinked rfl root).mpr (huniform root root.self_mem_nodes)
  | slotted huniform =>
    apply (Plan.shapeIssues_of_slots rfl rfl root).mpr
    rw [huniform root root.self_mem_nodes]
    exact nofun

theorem Drawable.covers (h : Drawable s root) : (s.script root).Covers root.nodes := by
  cases h with
  | chained huniform => exact Strategy.script_covers_of_linked rfl huniform
  | slotted huniform =>
    apply Strategy.script_covers_of_slots rfl rfl huniform
    rw [huniform root root.self_mem_nodes]
    exact nofun

theorem drawable_of_linked (h : root.Uniform .linked) :
    Drawable (directoryStrategy (some root)) root := by
  have hshape := h root root.self_mem_nodes
  cases root with
  | linked d f s => exact .chained h
  | binary d l r => cases hshape
  | wide d isLast slots => cases hshape

end Directory

-- The visitor ends below no node, so its levels are closed and the balance holds.
theorem writeTree_of_drawable (hg : g.Visible)
    (h : Directory.Drawable (directoryStrategy (some root)) root) (sink : Sink) :
    (writeTree (some root) sink g.glyphs).outcome = .ok root.nodes.length ∧
      (writeTree (some root) sink g.glyphs).state.contents = sink.contents ++ g.drawing root := by
  have hstart : Directory.Below g [] { sink := sink, glyphs := g.glyphs } := ⟨rfl, rfl, rfl⟩
  rcases Directory.draws_walk (ε := Error) h _ hstart with ⟨d', hwalk, hbelow, htext⟩
  let config : Config := { strategy := .strategy (directoryStrategy (some root)), glyphs := g.glyphs }
  have hcreate : Plan.create config (some root)
      = .ok (Plan.fresh config (some root) (directoryStrategy (some root))) :=
    Plan.create_of_suited rfl hg.issues_eq_nil h.rootIssues_eq_nil
  have hbalanced : Directory.isBalanced d' = true := by
    unfold Directory.isBalanced
    rw [hbelow.depth_eq]
    rfl
  have hcount : Plan.visits ((directoryStrategy (some root)).scriptOf (some root)).calls
      = root.nodes.length := h.covers.2.length_eq
  rcases Plan.perform_of_ok rfl hcreate hwalk hbalanced with ⟨houtcome, hstate⟩
  rw [hcount] at houtcome
  have hsink : (writeTree (some root) sink g.glyphs).state = d'.sink :=
    congrArg Directory.sink hstate
  rw [hsink]
  exact ⟨houtcome, htext⟩

theorem renderTree_of_drawable (hg : g.Visible)
    (h : Directory.Drawable (directoryStrategy (some root)) root) :
    (renderTree (some root) g.glyphs).outcome = .ok (g.drawing root) := by
  rcases writeTree_of_drawable hg h {} with ⟨houtcome, hcontents⟩
  show (writeTree (some root) {} g.glyphs).outcome.map
    (fun _ => (writeTree (some root) {} g.glyphs).state.contents) = _
  rw [houtcome, hcontents]
  exact congrArg Except.ok String.empty_append

end TreeTraversal
