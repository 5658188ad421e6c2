import TreeTraversal.Proofs.Drawing.Indent
import TreeTraversal.Proofs.Walk.Script

/-!
# Drawings are exact

A directory visitor that is driven by a walk writes just the drawing of the tree, from any state in
which no level is open. The walk hands the visitor a node only after the levels of all nodes above it
have been entered, which is what `Directory.Below` says; each subtree leaves that as it was.
-/

namespace TreeTraversal.Directory

/-! ## 1. Trees that can be drawn -/

/-- A strategy draws the trees of one shape whose nodes know their siblings. -/
inductive Drawable {α : Type} : Strategy → Node α → Prop
  | chained {root : Node α} (h : root.Uniform .linked) : Drawable .siblingPreOrder root
  | slotted {root : Node α} (h : root.Uniform .wide) : Drawable .preOrder root

/-- A visitor that draws with these texts, after any hooks whatever. -/
def Reached (g : GlyphTexts) (d : Directory) : Prop :=
  ∃ (sink : Sink) (history : List (Event (Node Value))),
    d = (visitor : Visitor Value Error Directory).afterAll { sink, glyphs := g.glyphs } history

/-- What a fresh visitor has written after a walk. -/
def freshText (g : GlyphTexts) (s : Strategy) (root : Node Value) : String :=
  (stateLeft (s.walk (visitor : Visitor Value Error Directory) (some root))
    { glyphs := g.glyphs }).sink.contents

theorem below_of_reached {g : GlyphTexts} {d : Directory} (h : Reached g d) (hdepth : d.depth = 0) :
    Below g [] d := by
  rcases h with ⟨sink, history, rfl⟩
  have hfresh : Aligned g.glyphs { sink, glyphs := g.glyphs } := ⟨rfl, rfl⟩
  have haligned := Visitor.afterAll_keeps (keeps_aligned (ε := Error)) history hfresh
  have hlength := haligned.length_segments
  rw [hdepth] at hlength
  -- with no level open the indent is empty, whatever has happened before
  have hsegments := List.eq_nil_of_length_eq_zero hlength
  exact ⟨haligned.glyphs_eq, hdepth, by rw [hsegments]; rfl⟩

/-! ## 2. Steps that draw -/

section Draws

variable {ε : Type}

/-- A step below some nodes succeeds, writes a text, and ends below the same nodes. -/
def Draws (g : GlyphTexts) (above : List (Node Value)) (step : EStateM ε Directory Unit)
    (text : String) : Prop :=
  ∀ d, Below g above d →
    ∃ d', step d = .ok () d' ∧ Below g above d' ∧ d'.sink.contents = d.sink.contents ++ text

variable {g : GlyphTexts} {above : List (Node Value)}

theorem draws_forM {β : Type} {step : β → EStateM ε Directory Unit} {text : β → String}
    (items : List β) (h : ∀ b ∈ items, Draws g above (step b) (text b)) :
    Draws g above (items.forM step) (String.join (items.map text)) := by
  induction items with
  | nil =>
    intro d hd
    exact ⟨d, rfl, hd, by simp⟩
  | cons b rest ih =>
    intro d hd
    rcases h b List.mem_cons_self d hd with ⟨d₁, hrun₁, hd₁, htext₁⟩
    rcases ih (fun c hc => h c (List.mem_cons_of_mem b hc)) d₁ hd₁ with ⟨d₂, hrun₂, hd₂, htext₂⟩
    refine ⟨d₂, ?_, hd₂, ?_⟩
    · show (step b >>= fun _ => rest.forM step) d = .ok () d₂
      rw [bind_of_ok hrun₁, hrun₂]
    · rw [htext₂, htext₁, List.map_cons, String.join_cons, String.append_assoc]

variable [IncludesErrors ε]

/-- A walk that draws each node and then, inside a level, its offspring, draws the whole tree. The
induction is on the tree; the nodes above grow by one on the way down. -/
theorem draws_tree {walk : Node Value → EStateM ε Directory Unit} (root : Node Value)
    (hshape : ∀ n ∈ root.nodes, n.shape ≠ .binary)
    (hwalk : ∀ n ∈ root.nodes,
      walk n = (do draw n; modify enter; n.offspring.forM walk; tryLeave)) :
    Draws g above (walk root) (String.join ((root.placements above).map g.line)) := by
  induction root using Node.induction_offspring generalizing above with
  | step n ih =>
    intro d hd
    -- the line of the node itself
    have hdraw := draw_below (ε := ε) hd (hshape n n.self_mem_nodes)
    have hopen : Below g (above ++ [n]) (enter (d.withLine (g.line ⟨above, n⟩) n.isLast)) :=
      below_enter (below_withLine hd _ _) rfl
    -- the lines of its offspring, each of which leaves the levels as they were
    have hoffspring : ∀ m ∈ n.offspring,
        Draws g (above ++ [n]) (walk m) (String.join ((m.placements (above ++ [n])).map g.line)) := by
      intro m hm
      have hsub : ∀ k ∈ m.nodes, k ∈ n.nodes := fun k hk => Node.mem_nodes_of_mem_offspring hm hk
      exact ih m hm (fun k hk => hshape k (hsub k hk)) (fun k hk => hwalk k (hsub k hk))
    rcases draws_forM n.offspring hoffspring _ hopen with ⟨d', hrun, hd', htext⟩
    refine ⟨leave d', ?_, below_leave hd', ?_⟩
    · rw [hwalk n n.self_mem_nodes, bind_of_ok hdraw, modify_bind, bind_of_ok hrun]
      exact tryLeave_below hd'
    · show d'.sink.contents = _
      rw [htext, Node.placements_eq, List.map_cons, String.join_cons, List.map_flatMap,
        GlyphTexts.join_flatMap]
      simp [enter, withLine, String.append_assoc]

theorem draws_walk {s : Strategy} {root : Node Value} (h : Drawable s root) :
    Draws g [] (s.walk (visitor : Visitor Value ε Directory) (some root)) (g.drawing root) := by
  cases h with
  | chained huniform =>
    refine draws_tree root (fun n hn => ?_) (fun n hn => ?_)
    · simp [huniform n hn]
    · exact Walk.siblingPreOrder_eq visitor (huniform n hn)
  | slotted huniform =>
    refine draws_tree root (fun n hn => ?_) (fun n hn => ?_)
    · simp [huniform n hn]
    · rw [Node.offspring_eq_children (by simp [huniform n hn])]
      exact Walk.preOrder_eq visitor n

end Draws

theorem freshText_eq_drawing {g : GlyphTexts} {s : Strategy} {root : Node Value}
    (h : Drawable s root) : freshText g s root = g.drawing root := by
  have hfresh : Below g [] { glyphs := g.glyphs } := ⟨rfl, rfl, rfl⟩
  rcases draws_walk (ε := Error) h _ hfresh with ⟨d', hrun, -, htext⟩
  unfold freshText
  rw [stateLeft_of_ok hrun, htext]
  exact String.empty_append

/-! ## 3. Drawing one tree, and several in a row -/

/-- **Drawings are exact.** A walk of a tree that can be drawn, from any state of the visitor in which
no level is open, succeeds and appends one line for each node, in pre-order. Several trees drawn in a
row by one visitor make the same text as each drawn by a visitor of its own. -/
theorem walk_appends_drawing (g : GlyphTexts) (d : Directory) (hd : Reached g d)
    (hdepth : d.depth = 0) :
    (∀ (s : Strategy) (root : Node Value), Drawable s root →
      ∃ d', s.walk (visitor : Visitor Value Error Directory) (some root) d = .ok () d' ∧
        d'.depth = 0 ∧
        (root.placements []).map Placement.node = root.nodes ∧
        d'.sink.contents = d.sink.contents ++ String.join ((root.placements []).map g.line)) ∧
    (∀ trees : List (Strategy × Node Value), (∀ t ∈ trees, Drawable t.1 t.2) →
      ∃ d', (trees.forM fun t =>
          t.1.walk (visitor : Visitor Value Error Directory) (some t.2)) d = .ok () d' ∧
        d'.depth = 0 ∧
        d'.sink.contents
          = d.sink.contents ++ String.join (trees.map fun t => freshText g t.1 t.2)) := by
  have hbelow := below_of_reached hd hdepth
  constructor
  · intro s root hroot
    rcases draws_walk (ε := Error) hroot d hbelow with ⟨d', hrun, hd', htext⟩
    exact ⟨d', hrun, hd'.depth_eq, root.placements_map_node [], htext⟩
  · intro trees htrees
    have hfresh : ∀ t ∈ trees,
        Draws g [] (t.1.walk (visitor : Visitor Value Error Directory) (some t.2))
          (freshText g t.1 t.2) := by
      intro t ht
      rw [freshText_eq_drawing (htrees t ht)]
      exact draws_walk (htrees t ht)
    rcases draws_forM trees hfresh d hbelow with ⟨d', hrun, hd', htext⟩
    exact ⟨d', hrun, hd'.depth_eq, htext⟩

/-- Hooks of which two fail and one leaves the mark of a last child behind. -/
def staleHooks : List (Event (Node Value)) :=
  [.visit (.wide (.str "x") true []), .enter, .visit (.binary (.str "y") none none), .leave, .leave]

/-- Texts of two characters each. -/
def plainTexts : GlyphTexts := ⟨"L-", "|-", "| ", "  "⟩

/-- A visitor after stale hooks. -/
def stale : Directory :=
  (visitor : Visitor Value Error Directory).afterAll { glyphs := plainTexts.glyphs } staleHooks

theorem outline_drawn_after_stale_hooks :
    stale.lastWasLast = true ∧ stale.sink.contents = "x\n" ∧
      ∃ d', Strategy.siblingPreOrder.walk (visitor : Visitor Value Error Directory)
          (some Node.outline) stale = .ok () d' ∧
        d'.sink.contents = "x\nr\n|-a\n| L-b\nL-c\n" := by
  have hlast : stale.lastWasLast = true := by decide
  have hsink : stale.sink.contents = "x\n" := by decide
  have hlines : (Node.outline.placements []).map plainTexts.line
      = ["r\n", "|-a\n", "| L-b\n", "L-c\n"] := by
    simp only [Node.outline, Node.placements_eq, Node.offspring, Node.chain, List.flatMap_cons,
      List.flatMap_nil, List.map_cons, List.map_nil, List.append_nil, List.nil_append,
      List.cons_append]
    decide
  obtain ⟨d', hrun, -, -, htext⟩ :=
    (walk_appends_drawing plainTexts stale ⟨{}, staleHooks, rfl⟩ (by decide)).1
      .siblingPreOrder Node.outline (.chained Node.uniform_outline)
  refine ⟨hlast, hsink, d', hrun, ?_⟩
  rw [htext, hsink, hlines]
  decide

end TreeTraversal.Directory
