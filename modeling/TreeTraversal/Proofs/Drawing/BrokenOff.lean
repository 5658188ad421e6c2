import TreeTraversal.Proofs.Drawing.Rendering
import TreeTraversal.Proofs.Walk.Stack

/-!
# Drawings that are broken off

A binary node cannot tell whether it is a last child, so a drawing ends with an error at the first such
node in pre-order. By then the lines of all nodes before it have been written, and nothing of its own.
The levels of the nodes above it stay open, and the indent is the one that its line would have had.
-/

namespace TreeTraversal

/-- A placement of a binary node in a list, with those before it, none of which is one of a binary
node. -/
structure FirstBinary {α : Type} (before : List (Placement α)) (p : Placement α)
    (placements : List (Placement α)) : Prop where
  not_binary : ∀ q ∈ before, q.node.shape ≠ .binary
  binary : p.node.shape = .binary
  split : ∃ after, placements = before ++ p :: after

namespace FirstBinary

variable {α : Type} {before xs : List (Placement α)} {p : Placement α}

theorem append (h : FirstBinary before p xs) (ys : List (Placement α)) :
    FirstBinary before p (xs ++ ys) := by
  rcases h.split with ⟨after, rfl⟩
  exact ⟨h.not_binary, h.binary, after ++ ys, by simp⟩

theorem prepend (h : FirstBinary before p xs) {front : List (Placement α)}
    (hfront : ∀ q ∈ front, q.node.shape ≠ .binary) :
    FirstBinary (front ++ before) p (front ++ xs) := by
  rcases h.split with ⟨after, rfl⟩
  refine ⟨?_, h.binary, after, by simp⟩
  intro q hq
  rcases List.mem_append.mp hq with hq | hq
  · exact hfront q hq
  · exact h.not_binary q hq

end FirstBinary

/-- The indent of a placement: what its line begins with, up to the branch. -/
def GlyphTexts.indentOf (g : GlyphTexts) {α : Type} (p : Placement α) : String :=
  String.join (p.above.tail.map g.indentUnder)

namespace Directory

variable {ε : Type} [IncludesErrors ε] {g : GlyphTexts} {above : List (Node Value)}

/-! ## 1. Steps that break off -/

/-- A step below some nodes writes a text and then fails at a binary node with this placement, below
the nodes above that. -/
def BreaksOff (g : GlyphTexts) (above : List (Node Value)) (step : EStateM ε Directory Unit)
    (text : String) (p : Placement Value) : Prop :=
  ∀ d, Below g above d →
    ∃ d', step d = .error (IncludesErrors.ofError (.noSiblingOrder .binary)) d' ∧
      Below g p.above d' ∧ d'.sink.contents = d.sink.contents ++ text

variable {step next : EStateM ε Directory Unit} {text text' : String} {p : Placement Value}

theorem BreaksOff.bind (h : BreaksOff g above step text p) :
    BreaksOff g above (do step; next) text p := by
  intro d hd
  rcases h d hd with ⟨d', hrun, hd', htext⟩
  exact ⟨d', bind_of_error hrun, hd', htext⟩

theorem Draws.breaksOff (h : Draws g above step text) (hnext : BreaksOff g above next text' p) :
    BreaksOff g above (do step; next) (text ++ text') p := by
  intro d hd
  rcases h d hd with ⟨d₁, hrun₁, hd₁, htext₁⟩
  rcases hnext d₁ hd₁ with ⟨d₂, hrun₂, hd₂, htext₂⟩
  refine ⟨d₂, ?_, hd₂, ?_⟩
  · rw [bind_of_ok hrun₁, hrun₂]
  · rw [htext₂, htext₁, String.append_assoc]

/-- A binary node is asked whether it is a last child before anything is written. -/
theorem draw_binary {n : Node Value} (h : n.shape = .binary) (d : Directory) :
    (draw n : EStateM ε Directory Unit) d
      = .error (IncludesErrors.ofError (.noSiblingOrder .binary)) d := by
  cases n with
  | binary _ l r => rfl
  | linked _ f s => cases h
  | wide _ isLast slots => cases h

/-! ## 2. Trees with a binary node -/

/-- Of some trees in a row, those before the first one with a binary node are drawn, and that one is
broken off. -/
theorem breaksOff_forM {walk : Node Value → EStateM ε Directory Unit} {items : List (Node Value)}
    (hdraws : ∀ m ∈ items, (∀ k ∈ m.nodes, k.shape ≠ .binary) →
      Draws g above (walk m) (String.join ((m.placements above).map g.line)))
    (hbreaks : ∀ m ∈ items, (∃ k ∈ m.nodes, k.shape = .binary) →
      ∃ before p, FirstBinary before p (m.placements above) ∧
        BreaksOff g above (walk m) (String.join (before.map g.line)) p)
    (h : ∃ m ∈ items, ∃ k ∈ m.nodes, k.shape = .binary) :
    ∃ before p, FirstBinary before p (items.flatMap (Node.placements above)) ∧
      BreaksOff g above (items.forM walk) (String.join (before.map g.line)) p := by
  induction items with
  | nil => simp at h
  | cons m rest ih =>
    by_cases hm : ∃ k ∈ m.nodes, k.shape = .binary
    · rcases hbreaks m List.mem_cons_self hm with ⟨before, p, hfirst, hoff⟩
      exact ⟨before, p, hfirst.append _, hoff.bind⟩
    · have hshape : ∀ k ∈ m.nodes, k.shape ≠ .binary := fun k hk hbinary => hm ⟨k, hk, hbinary⟩
      have hlater : ∃ m ∈ rest, ∃ k ∈ m.nodes, k.shape = .binary := by
        rcases h with ⟨n, hn, hbinary⟩
        rcases List.mem_cons.mp hn with rfl | hn
        · exact absurd hbinary hm
        · exact ⟨n, hn, hbinary⟩
      rcases ih (fun n hn => hdraws n (List.mem_cons_of_mem m hn))
        (fun n hn => hbreaks n (List.mem_cons_of_mem m hn)) hlater with ⟨before, p, hfirst, hoff⟩
      have hfront : ∀ q ∈ m.placements above, q.node.shape ≠ .binary := by
        intro q hq
        apply hshape
        rw [← m.placements_map_node above]
        exact List.mem_map_of_mem hq
      refine ⟨m.placements above ++ before, p, hfirst.prepend hfront, ?_⟩
      rw [List.map_append, String.join_append]
      exact (hdraws m List.mem_cons_self hshape).breaksOff hoff

/-- A walk that draws each node and then, inside a level, its offspring, breaks off at the first binary
node. The induction is on the tree; the nodes above grow by one on the way down, and stay. -/
theorem breaksOff_tree {walk : Node Value → EStateM ε Directory Unit} (root : Node Value)
    (hwalk : ∀ n ∈ root.nodes,
      walk n = (do draw n; modify enter; n.offspring.forM walk; tryLeave))
    (h : ∃ n ∈ root.nodes, n.shape = .binary) :
    ∃ before p, FirstBinary before p (root.placements above) ∧
      BreaksOff g above (walk root) (String.join (before.map g.line)) p := by
  induction root using Node.induction_offspring generalizing above with
  | step n ih =>
    rw [hwalk n n.self_mem_nodes, Node.placements_eq]
    by_cases hn : n.shape = .binary
    · refine ⟨[], ⟨above, n⟩, ⟨nofun, hn, _, rfl⟩, ?_⟩
      apply BreaksOff.bind
      intro d hd
      exact ⟨d, draw_binary hn d, hd, by simp⟩
    · have hsub : ∀ m ∈ n.offspring, ∀ k ∈ m.nodes, k ∈ n.nodes :=
        fun m hm k hk => Node.mem_nodes_of_mem_offspring hm hk
      have hbelow : ∃ m ∈ n.offspring, ∃ k ∈ m.nodes, k.shape = .binary := by
        rcases h with ⟨k, hk, hbinary⟩
        rw [Node.nodes_eq, List.mem_cons, List.mem_flatMap] at hk
        rcases hk with rfl | ⟨m, hm, hk⟩
        · exact absurd hbinary hn
        · exact ⟨m, hm, k, hk, hbinary⟩
      have hoffspring : ∃ before p,
          FirstBinary before p (n.offspring.flatMap (Node.placements (above ++ [n]))) ∧
            BreaksOff g (above ++ [n]) (n.offspring.forM walk) (String.join (before.map g.line)) p :=
        breaksOff_forM (fun m hm hshape => draws_tree m hshape fun k hk => hwalk k (hsub m hm k hk))
          (fun m hm hbinary => ih m hm (fun k hk => hwalk k (hsub m hm k hk)) hbinary) hbelow
      rcases hoffspring with ⟨before, p, hfirst, hoff⟩
      refine ⟨⟨above, n⟩ :: before, p, ?_, ?_⟩
      · have hself : ∀ q ∈ [Placement.mk above n], q.node.shape ≠ .binary := by simpa using hn
        exact hfirst.prepend hself
      · intro d hd
        -- the line of the node itself, and then its offspring up to the binary node
        have hdraw := draw_below (ε := ε) hd hn
        have hopen : Below g (above ++ [n]) (enter (d.withLine (g.line ⟨above, n⟩) n.isLast)) :=
          below_enter (below_withLine hd _ _) rfl
        rcases hoff _ hopen with ⟨d', hrun, hd', htext⟩
        refine ⟨d', ?_, hd', ?_⟩
        · rw [bind_of_ok hdraw, modify_bind, bind_of_error hrun]
        · rw [htext, List.map_cons, String.join_cons]
          simp [enter, withLine, String.append_assoc]

/-! ## 3. Drawings -/

theorem breaksOff_walk {root : Node Value} (hslots : ∀ n ∈ root.nodes, n.shape ≠ .linked)
    (h : ∃ n ∈ root.nodes, n.shape = .binary) :
    ∃ before p, FirstBinary before p (root.placements []) ∧
      BreaksOff g [] (Strategy.preOrder.walk (visitor : Visitor Value ε Directory) (some root))
        (String.join (before.map g.line)) p := by
  refine breaksOff_tree root (fun n hn => ?_) h
  rw [Node.offspring_eq_children (hslots n hn)]
  exact Walk.preOrder_eq visitor n

/-- **A drawing that is broken off ends with a whole line.** Let a tree of wide and binary nodes have a
binary node among those that pre-order visits. From any state of the visitor in which no level is open,
the walk fails because the first of them keeps no order of siblings. Until then it has written the lines
of the nodes before that one, and nothing else; the levels of the nodes above it are open, and the indent
is what its line would have begun with. The same is written by a single call. -/
theorem drawing_ends_before_binary_node (g : GlyphTexts) (root : Node Value)
    (hslots : ∀ n ∈ root.nodes, n.shape ≠ .linked)
    (hbinary : ∃ n ∈ Strategy.preOrder.nodesTold (some root), n.shape = .binary) :
    (root.placements []).map Placement.node = Strategy.preOrder.nodesTold (some root) ∧
    ∃ before p, FirstBinary before p (root.placements []) ∧
      (∃ rest, g.line p = g.indentOf p ++ rest) ∧
      (∀ d, Reached g d → d.depth = 0 →
        ∃ d', Strategy.preOrder.walk (visitor : Visitor Value Error Directory) (some root) d
            = .error (.noSiblingOrder .binary) d' ∧
          d'.sink.contents = d.sink.contents ++ String.join (before.map g.line) ∧
          d'.depth = p.above.length ∧ d'.indent = .ok (g.indentOf p)) ∧
      (g.Visible → ∀ sink,
        (writeTree (some root) sink g.glyphs).outcome = .error (.noSiblingOrder .binary) ∧
        (writeTree (some root) sink g.glyphs).state.contents
          = sink.contents ++ String.join (before.map g.line)) := by
  have hnodes : Strategy.preOrder.nodesTold (some root) = root.nodes := by
    rw [Strategy.nodesTold_eq, Node.visited_scriptOf_preOrder]
    exact Node.slotNodes_eq_nodes hslots
  rw [hnodes] at hbinary ⊢
  obtain ⟨before, p, hfirst, hoff⟩ := breaksOff_walk (ε := Error) (g := g) hslots hbinary
  refine ⟨root.placements_map_node [], before, p, hfirst, ?_, ?_, ?_⟩
  · have hpieces := line_eq_pieces (g := g) p.above p.node
    rw [String.append_assoc, String.append_assoc] at hpieces
    exact ⟨_, hpieces.symm⟩
  · intro d hd hdepth
    rcases hoff d (below_of_reached hd hdepth) with ⟨d', hrun, hd', htext⟩
    exact ⟨d', hrun, htext, hd'.depth_eq, indent_below hd'⟩
  · intro hg sink
    have hroot := hslots root root.self_mem_nodes
    have hstrategy : directoryStrategy (some root) = .preOrder := by
      cases root with
      | linked d f s => exact absurd rfl hroot
      | binary d l r => rfl
      | wide d isLast slots => rfl
    have hissues : Plan.rootIssues .preOrder (some root) = [] :=
      (Plan.shapeIssues_of_slots rfl rfl root).mpr fun hlinked => absurd hlinked hroot
    let config : Config := { strategy := .strategy .preOrder, glyphs := g.glyphs }
    have hcreate : Plan.create config (some root) = .ok (Plan.fresh config (some root) .preOrder) :=
      Plan.create_of_suited rfl hg.issues_eq_nil hissues
    have hstart : Below g [] { sink := sink, glyphs := g.glyphs } := ⟨rfl, rfl, rfl⟩
    rcases hoff _ hstart with ⟨d', hrun, -, htext⟩
    rcases Plan.perform_of_walk_error hcreate hrun with ⟨houtcome, hstate⟩
    have hsink : (Plan.perform config (some root) visitor _).state.sink = d'.sink :=
      congrArg Directory.sink hstate
    unfold writeTree
    rw [hstrategy]
    refine ⟨houtcome, ?_⟩
    rw [← htext, ← hsink]
    rfl

/-- A tree of wide nodes with two binary nodes among them, the first of them at depth two. -/
def grafted : Node Value :=
  .wide (.str "r") false [
    some (.wide (.str "a") false []), none,
    some (.wide (.str "b") true [
      some (.wide (.str "c") false []), some (.binary (.str "d") none none)]),
    some (.binary (.str "e") none none)]

theorem grafted_drawn_up_to_binary_node :
    ∃ before p, FirstBinary before p (grafted.placements []) ∧
      String.join (before.map plainTexts.line) = "r\n|-a\nL-b\n  |-c\n" ∧
      p.above.length = 2 ∧ plainTexts.indentOf p = "  " ∧
      (writeTree (some grafted) ⟨"x\n"⟩ plainTexts.glyphs).outcome = .error (.noSiblingOrder .binary) ∧
      (writeTree (some grafted) ⟨"x\n"⟩ plainTexts.glyphs).state.contents
        = "x\nr\n|-a\nL-b\n  |-c\n" := by
  have hslots : ∀ n ∈ grafted.nodes, n.shape ≠ .linked := by
    simp [grafted, Node.nodes_eq, Node.offspring, Node.children, Node.slots, Node.shape]
  have hbinary : ∃ n ∈ Strategy.preOrder.nodesTold (some grafted), n.shape = .binary := by
    rw [Strategy.nodesTold_eq, Node.visited_scriptOf_preOrder, Node.slotNodesOf,
      Node.slotNodes_eq_nodes hslots]
    simp [grafted, Node.nodes_eq, Node.offspring, Node.children, Node.slots, Node.shape]
  have hvisible : plainTexts.Visible := by
    unfold GlyphTexts.Visible
    decide
  obtain ⟨-, before, p, hfirst, -, hwalk, hwrite⟩ :=
    drawing_ends_before_binary_node plainTexts grafted hslots hbinary
  obtain ⟨houtcome, hcontents⟩ := hwrite hvisible ⟨"x\n"⟩
  obtain ⟨d', hrun, htext, hdepth, hindent⟩ :=
    hwalk { glyphs := plainTexts.glyphs } ⟨{}, [], rfl⟩ rfl
  -- the state in which the walk ends is computed
  cases hrun
  have htext' : "r\n|-a\nL-b\n  |-c\n" = "" ++ String.join (before.map plainTexts.line) := htext
  have hindent' : (.ok "  " : Except Error String) = .ok (plainTexts.indentOf p) := hindent
  rw [String.empty_append] at htext'
  refine ⟨before, p, hfirst, htext'.symm, hdepth.symm, (Except.ok.inj hindent').symm, houtcome, ?_⟩
  rw [hcontents, ← htext']
  decide

end Directory

end TreeTraversal
