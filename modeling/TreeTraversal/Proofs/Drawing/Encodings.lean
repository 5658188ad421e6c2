import TreeTraversal.Proofs.Drawing.Ordered
import TreeTraversal.Proofs.Node.Assembly
import TreeTraversal.Proofs.Plan.OneCall

/-!
# Encodings of ordered trees

An ordered tree can be put into linked nodes, which hold a first child and a sibling, or into wide nodes,
which hold slots with holes in any places. Visitors do not notice which of these it was: the hooks are the
same, and so is the drawing, if the wide nodes know which of them are last children.
-/

namespace TreeTraversal

/-! ## 1. Trees in wide nodes -/

/-- Whether an ordered tree was put into wide nodes, with any holes between the nodes in the slots. -/
inductive Slotted {α : Type} : OrderedTree α → Node α → Prop
  | wide {data : α} {below : List (OrderedTree α)} (isLast : Bool) {slots : List (Option (Node α))}
      (hbelow : List.Forall₂ Slotted below (slots.filterMap id)) :
      Slotted (.node data below) (.wide data isLast slots)

namespace Slotted

variable {α : Type} {t : OrderedTree α} {m : Node α}

theorem uniform (h : Slotted t m) : m.Uniform .wide := by
  induction t using OrderedTree.induction_below generalizing m with
  | step data below ih =>
    cases h with
    | @wide _ _ isLast slots hbelow =>
      refine Node.uniform_iff.mpr ⟨rfl, fun k hk => ?_⟩
      obtain ⟨i, hi, rfl⟩ := List.getElem_of_mem hk
      have hlt : i < below.length := hbelow.length_eq ▸ hi
      exact ih _ (List.getElem_mem hlt) (hbelow.get hlt hi)

theorem seen_eq (h : Slotted t m) : Strategy.preOrder.seen m = t := by
  induction t using OrderedTree.induction_below generalizing m with
  | step data below ih =>
    cases h with
    | @wide _ _ isLast slots hbelow =>
      have hmatched := (List.forall₂_and_left _ _).mpr ⟨ih, hbelow⟩
      have hseen : List.Forall₂ (fun u k => u = Strategy.preOrder.seen k) below
          (Node.wide data isLast slots).children :=
        hmatched.imp fun _ _ h => (h.1 h.2).symm
      rw [← List.forall₂_map_right_iff, List.forall₂_eq_eq_eq] at hseen
      rw [Strategy.seen_eq, Strategy.preOrder_offspring, ← hseen]
      rfl

-- Nothing is left out where no node is linked.
theorem siblingPreOrder_seen (h : Slotted t m) : Strategy.siblingPreOrder.seen m = t := by
  rw [← h.seen_eq]
  have huniform := h.uniform
  clear h
  induction m using Node.induction_offspring with
  | step m ih =>
    obtain ⟨hshape, hbelow⟩ := Node.uniform_iff.mp huniform
    have hsame : m.offspring = m.children := Node.offspring_eq_children (by rw [hshape]; nofun)
    rw [Strategy.seen_eq, Strategy.seen_eq, Strategy.siblingPreOrder_offspring,
      Strategy.preOrder_offspring, ← hsame]
    exact congrArg _ (List.map_congr_left fun k hk => ih k hk (hbelow k hk))

end Slotted

/-! ## 2. Rendered trees -/

section Rendering

variable {root : Node Value} {g : Glyphs}

theorem Glyphs.exists_texts (h : g.issues = []) :
    ∃ texts : GlyphTexts, texts.Visible ∧ texts.glyphs = g := by
  have hget : ∀ name, ∃ text, g.get name = some text ∧ text ≠ "" := by
    intro name
    have hnot : g.isEmptyAt name = false := by
      rw [issues, List.map_eq_nil_iff, List.filter_eq_nil_iff] at h
      simpa using h name (by cases name <;> simp)
    unfold isEmptyAt at hnot
    cases htext : g.get name with
    | none =>
      rw [htext] at hnot
      cases hnot
    | some text =>
      rw [htext] at hnot
      exact ⟨text, rfl, String.isEmpty_eq_false_iff.mp hnot⟩
  obtain ⟨last, hlast, hlast'⟩ := hget .last
  obtain ⟨branch, hbranch, hbranch'⟩ := hget .branch
  obtain ⟨pipe, hpipe, hpipe'⟩ := hget .pipe
  obtain ⟨blank, hblank, hblank'⟩ := hget .blank
  refine ⟨⟨last, branch, pipe, blank⟩, ?_, ?_⟩
  · intro text htext
    simp only [List.mem_cons, List.not_mem_nil, or_false] at htext
    rcases htext with rfl | rfl | rfl | rfl
    · exact hlast'
    · exact hbranch'
    · exact hpipe'
    · exact hblank'
  · cases g
    cases hlast
    cases hbranch
    cases hpipe
    cases hblank
    rfl

-- Faulty glyphs are refused, whatever the tree is.
theorem renderTree_of_issues (h : g.issues ≠ []) (root : Option (Node Value)) :
    (renderTree root g).outcome = .error (.invalidConfig g.issues) := by
  have hcreate : Plan.create (drawingConfig root g) root = .error (.invalidConfig g.issues) := by
    cases hissues : g.issues with
    | nil => exact absurd hissues h
    | cons issue rest =>
      simp [Plan.create, drawingConfig, Config.issues, Config.strategyIssues, hissues]
  rw [renderTree_outcome, writeTree_of_refusal hcreate]
  rfl

theorem renderTree_of_answersTruly {texts : GlyphTexts} (hvisible : texts.Visible)
    (hdrawable : Directory.Drawable (directoryStrategy (some root)) root)
    (htruly : root.AnswersTruly) :
    (renderTree (some root) texts.glyphs).outcome
      = .ok ((Strategy.siblingPreOrder.seen root).drawing texts) := by
  rw [renderTree_of_drawable hvisible hdrawable, GlyphTexts.drawing_eq_ordered htruly]

theorem drawable_of_wide (h : root.Uniform .wide) :
    Directory.Drawable (directoryStrategy (some root)) root := by
  have hshape := h root root.self_mem_nodes
  cases root with
  | linked d f s => cases hshape
  | binary d l r => cases hshape
  | wide d isLast slots => exact .slotted h

/-- Trees that are drawn, answer truly and look the same are rendered the same, also where glyphs are
refused. -/
theorem renderTree_congr {root' : Node Value}
    (hdrawable : Directory.Drawable (directoryStrategy (some root)) root)
    (htruly : root.AnswersTruly)
    (hdrawable' : Directory.Drawable (directoryStrategy (some root')) root')
    (htruly' : root'.AnswersTruly)
    (hseen : Strategy.siblingPreOrder.seen root = Strategy.siblingPreOrder.seen root') (g : Glyphs) :
    (renderTree (some root) g).outcome = (renderTree (some root') g).outcome := by
  by_cases hissues : g.issues = []
  · obtain ⟨texts, hvisible, rfl⟩ := Glyphs.exists_texts hissues
    rw [renderTree_of_answersTruly hvisible hdrawable htruly,
      renderTree_of_answersTruly hvisible hdrawable' htruly', hseen]
  · rw [renderTree_of_issues hissues, renderTree_of_issues hissues]

end Rendering

/-! ## 3. Encodings that look alike -/

open Strategy

/-- **The linked encoding and holes go unnoticed.** An ordered tree can be built of linked nodes in any
store in which every node has one owner. However it was made there, sibling pre-order ends without an
error and calls the hooks that pre-order calls on the tree in wide nodes, with holes in any places. Two
trees in wide nodes that differ in holes have the same hooks in breadth-first and post-order too. If the
wide nodes answer truly whether they are last children, the linked tree and the wide one are rendered
alike with any glyphs, and with visible ones as the ordered tree is drawn. -/
theorem encodings_look_alike (t : OrderedTree Value) :
    (∀ run : List (Making Value), OwnedOnce run → ∃ calls a,
      (t.chained.build : EStateM Error (Store Value) (Option NodeId)) (Store.ofRun run)
        = .ok (some a) (Store.ofRun (run ++ calls)) ∧
      OwnedOnce (run ++ calls) ∧ Assembled (run ++ calls) t a) ∧
    (∀ (run : List (Making Value)) (a : NodeId), OwnedOnce run → Assembled run t a →
      ∃ n, (Store.ofRun run).node? a = some n ∧ (siblingPreOrder.told (some n)).2 = none ∧
        (∀ texts : GlyphTexts, texts.Visible →
          (renderTree (some n) texts.glyphs).outcome = .ok (t.drawing texts)) ∧
        ∀ m, Slotted t m →
          siblingPreOrder.heard (some n) = preOrder.heard (some m) ∧
          (m.AnswersTruly → ∀ g : Glyphs,
            (renderTree (some n) g).outcome = (renderTree (some m) g).outcome)) ∧
    ∀ m m', Slotted t m → Slotted t m' →
      preOrder.heard (some m) = preOrder.heard (some m') ∧
      breadthFirst.heard (some m) = breadthFirst.heard (some m') ∧
      postOrder.heard (some m) = postOrder.heard (some m') := by
  refine ⟨?_, ?_, ?_⟩
  · intro run hrun
    obtain ⟨calls, a, hbuild, hadds⟩ := build_chained t hrun
    obtain ⟨hassembled, -⟩ := List.forall₂_cons.mp hadds.assembled
    exact ⟨calls, a, hbuild, hadds.owned, hassembled⟩
  · intro run a hrun ha
    obtain ⟨n, hnode, hlinked, hseen⟩ := hrun.exists_node_of_assembled ha
    have hdrawable := Directory.drawable_of_linked hlinked
    have htruly := Node.answersTruly_of_linked hlinked
    refine ⟨n, hnode, ?_, ?_, fun m hm => ⟨?_, ?_⟩⟩
    · rw [told_eq_script]
      exact (Node.siblingScript_covers hlinked).1
    · intro texts hvisible
      rw [renderTree_of_answersTruly hvisible hdrawable htruly, hseen]
    · rw [heard_eq_preOrderHooks (.inr rfl) (.siblingPreOrder hlinked), hseen,
        heard_eq_preOrderHooks (.inl rfl) (.preOrder m), hm.seen_eq]
    · intro hanswers g
      apply renderTree_congr hdrawable htruly (drawable_of_wide hm.uniform) hanswers
      rw [hseen, hm.siblingPreOrder_seen]
  · intro m m' hm hm'
    have hsame : preOrder.seen m = preOrder.seen m' := hm.seen_eq.trans hm'.seen_eq.symm
    refine ⟨?_, breadthFirst_heard_congr hsame, ?_⟩
    · rw [heard_eq_preOrderHooks (.inl rfl) (.preOrder m),
        heard_eq_preOrderHooks (.inl rfl) (.preOrder m'), hsame]
    · rw [heard_eq_postOrderHooks, heard_eq_postOrderHooks, postOrder_seen, postOrder_seen, hsame]

/-- The ordered tree `r(a(b), c)`. -/
def sprig : OrderedTree Value :=
  .node (.str "r") [.node (.str "a") [.node (.str "b") []], .node (.str "c") []]

/-- The same tree in wide nodes, with a hole beside each of them. -/
def holedSprig : Node Value :=
  .wide (.str "r") false
    [none, some (.wide (.str "a") false [some (.wide (.str "b") true []), none]), none,
      some (.wide (.str "c") true [none])]

theorem slotted_holedSprig : Slotted sprig holedSprig :=
  .wide _ (.cons (.wide _ (.cons (.wide _ .nil) .nil)) (.cons (.wide _ .nil) .nil))

theorem answersTruly_holedSprig : holedSprig.AnswersTruly := by
  simp [holedSprig, Node.AnswersTruly, Node.nodes_eq, Node.offspring, Node.children, Node.slots,
    Node.answerInRow_cons, Node.answerInRow_nil, Node.isLastChild]

/-- A store in which a node was made already that has nothing to do with the tree. -/
def stranger : List (Making Value) :=
  [.linked (.str "x") []]

theorem sprig_looks_like_holedSprig :
    OwnedOnce stranger ∧ ∃ calls a n,
      (sprig.chained.build : EStateM Error (Store Value) (Option NodeId)) (Store.ofRun stranger)
        = .ok (some a) (Store.ofRun (stranger ++ calls)) ∧
      (Store.ofRun (stranger ++ calls)).node? a = some n ∧
      siblingPreOrder.heard (some n) = preOrder.heard (some holedSprig) ∧
      (renderTree (some n) Directory.plainTexts.glyphs).outcome = .ok "r\n|-a\n| L-b\nL-c\n" ∧
      (renderTree (some holedSprig) Directory.plainTexts.glyphs).outcome
        = .ok "r\n|-a\n| L-b\nL-c\n" := by
  have howned : OwnedOnce stranger := ⟨by decide, by decide, by decide⟩
  have hvisible : Directory.plainTexts.Visible := by
    unfold GlyphTexts.Visible
    decide
  have hdrawing : sprig.drawing Directory.plainTexts = "r\n|-a\n| L-b\nL-c\n" := by
    simp [sprig, OrderedTree.drawing, OrderedTree.linesUnder]
    decide
  obtain ⟨hbuild, hmade, -⟩ := encodings_look_alike sprig
  obtain ⟨calls, a, hrun, howned', hassembled⟩ := hbuild stranger howned
  obtain ⟨n, hnode, -, hdrawn, halike⟩ := hmade _ a howned' hassembled
  obtain ⟨hheard, hrendered⟩ := halike holedSprig slotted_holedSprig
  have hlinked := (hdrawn Directory.plainTexts hvisible).trans (congrArg Except.ok hdrawing)
  have hsame := hrendered answersTruly_holedSprig Directory.plainTexts.glyphs
  exact ⟨howned, calls, a, n, hrun, hnode, hheard, hlinked, hsame.symm.trans hlinked⟩

end TreeTraversal
