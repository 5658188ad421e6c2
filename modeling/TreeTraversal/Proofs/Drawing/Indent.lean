import TreeTraversal.Proofs.Drawing.Line
import TreeTraversal.Proofs.Visitor.History
import TreeTraversal.Visitor.Directory

/-!
# The indent of a drawing in progress

A directory visitor keeps a stack of pieces of indent, and sees nothing of the tree. Two invariants say
what the stack is. After any hooks at all it holds one piece less than there are open levels. During a
walk it holds the pieces of the nodes above the current place, the root left out.
-/

namespace TreeTraversal.Directory

variable {ε : Type} [IncludesErrors ε]

/-! ## 1. After any hooks -/

/-- The glyphs are these, and there is one piece of indent less than there are open levels. -/
structure Aligned (glyphs : Glyphs) (d : Directory) : Prop where
  glyphs_eq : d.glyphs = glyphs
  length_segments : d.segments.length = d.depth - 1

-- A visit changes what is written and what is remembered of the node, and nothing else, even if it
-- fails half way through the line.
theorem keeps_draw {P : Directory → Prop}
    (h : ∀ d sink isLast, P d → P { d with sink := sink, lastWasLast := isLast }) (n : Node Value) :
    Keeps P (draw n : EStateM ε Directory Unit) := by
  have hput : ∀ text, Keeps P (modify (put text) : EStateM ε Directory Unit) := fun text =>
    keeps_modify fun d hd => h d _ d.lastWasLast hd
  -- one step after another, each of which may be the last
  refine keeps_bind (keeps_check _) fun isLast => ?_
  refine keeps_bind keeps_get fun d => ?_
  refine keeps_bind (keeps_check _) fun indent => ?_
  refine keeps_bind (hput indent) fun _ => ?_
  refine keeps_bind keeps_get fun d => ?_
  refine keeps_bind (keeps_check _) fun branch => ?_
  refine keeps_bind (hput branch) fun _ => ?_
  apply keeps_modify
  exact fun d hd => h d _ isLast hd

theorem aligned_enter {glyphs : Glyphs} {d : Directory} (h : Aligned glyphs d) :
    Aligned glyphs (enter d) := by
  refine ⟨h.glyphs_eq, ?_⟩
  have hlength := h.length_segments
  by_cases hdepth : d.depth = 0
  · simp [enter, hdepth, hlength]
  · simp only [enter, hdepth, if_false, List.length_cons]
    omega

theorem aligned_leave {glyphs : Glyphs} {d : Directory} (h : Aligned glyphs d) :
    Aligned glyphs (leave d) := by
  refine ⟨h.glyphs_eq, ?_⟩
  have hlength := h.length_segments
  by_cases hdepth : d.depth - 1 = 0
  · simp [leave, hdepth]
  · simp only [leave, hdepth, if_false, List.length_tail]
    omega

theorem keeps_tryLeave {P : Directory → Prop} (h : ∀ d, P d → P (leave d)) :
    Keeps P (tryLeave : EStateM ε Directory Unit) := by
  refine keeps_bind keeps_get fun d => ?_
  by_cases hdepth : d.depth = 0
  · rw [if_pos hdepth]
    exact keeps_raise _
  · rw [if_neg hdepth]
    exact keeps_modify h

theorem keeps_aligned {glyphs : Glyphs} (event : Event (Node Value)) :
    Keeps (Aligned glyphs) ((visitor : Visitor Value ε Directory).handle event) := by
  cases event with
  | visit n => exact keeps_draw (fun d sink isLast hd => ⟨hd.glyphs_eq, hd.length_segments⟩) n
  | enter => exact keeps_modify fun d hd => aligned_enter hd
  | leave => exact keeps_tryLeave fun d hd => aligned_leave hd

/-! ## 2. What hooks do -/

section Hooks

variable {d : Directory}

theorem joinSegments_map_some (position : Nat) (texts : List String) :
    joinSegments position (texts.map some) = .ok (String.join texts) := by
  induction texts generalizing position with
  | nil => rfl
  | cons text rest ih =>
    rw [List.map_cons, joinSegments, ih, String.join_cons]
    rfl

theorem indent_eq_join {texts : List String} (h : d.segments.reverse = texts.map some) :
    d.indent = .ok (String.join texts) := by
  unfold indent
  rw [h, joinSegments_map_some]

/-- The drawing after one more line, of a node that is a last child or not. -/
def withLine (line : String) (isLast : Bool) (d : Directory) : Directory :=
  { d with sink := d.sink.write line, lastWasLast := isLast }

theorem finishLine_put_put (indent branch text : String) (isLast : Bool) (d : Directory) :
    finishLine text isLast (put branch (put indent d))
      = d.withLine (indent ++ branch ++ text ++ "\n") isLast := by
  simp [finishLine, put, withLine, Sink.write, Sink.writeLine, String.append_assoc]

theorem draw_of_pieces {n : Node Value} {isLast : Bool} {indent branch : String}
    (hlast : n.isLastChild = .ok isLast) (hindent : d.indent = .ok indent)
    (hbranch : d.branch isLast = .ok branch) :
    (draw n : EStateM ε Directory Unit) d
      = .ok () (d.withLine (indent ++ branch ++ n.text ++ "\n") isLast) := by
  -- what is written does not change the branch
  have hput : (put indent d).branch isLast = .ok branch := hbranch
  unfold draw
  -- the indent, the branch and the rest of the line are written one after the other
  rw [hlast, check_ok, pure_bind, get_bind, hindent, check_ok, pure_bind, modify_bind, get_bind,
    hput, check_ok, pure_bind, modify_bind, ← finishLine_put_put]
  rfl

theorem draw_of_error {n : Node Value} {e : Error} (hlast : n.isLastChild = .error e)
    (d : Directory) :
    (draw n : EStateM ε Directory Unit) d = .error (IncludesErrors.ofError e) d := by
  unfold draw
  rw [hlast]
  rfl

theorem tryLeave_of_open (h : d.depth ≠ 0) :
    (tryLeave : EStateM ε Directory Unit) d = .ok () (leave d) := by
  unfold tryLeave
  rw [get_bind, if_neg h]
  rfl

theorem tryLeave_of_closed (h : d.depth = 0) :
    (tryLeave : EStateM ε Directory Unit) d
      = .error (IncludesErrors.ofError .unmatchedLeave) d := by
  unfold tryLeave
  rw [get_bind, if_pos h]
  rfl

end Hooks

/-! ## 3. During a walk -/

/-- The drawing stands below these nodes: a level is open for each of them, and the indent is made of
their pieces, except for the root's. -/
structure Below (g : GlyphTexts) (above : List (Node Value)) (d : Directory) : Prop where
  glyphs_eq : d.glyphs = g.glyphs
  depth_eq : d.depth = above.length
  segments_eq : d.segments.reverse = above.tail.map fun n => some (g.indentUnder n)

variable {g : GlyphTexts} {above : List (Node Value)} {d : Directory}

theorem indent_below (h : Below g above d) :
    d.indent = .ok (String.join (above.tail.map g.indentUnder)) := by
  have hsegments : d.segments.reverse = (above.tail.map g.indentUnder).map some := by
    rw [h.segments_eq, List.map_map]
    rfl
  exact indent_eq_join hsegments

theorem branch_below (h : Below g above d) (n : Node Value) :
    d.branch n.isLast = .ok (if above = [] then "" else g.branchTo n) := by
  unfold branch
  rw [h.depth_eq, h.glyphs_eq]
  cases above with
  | nil => rfl
  | cons root between =>
    cases hlast : n.isLast <;> simp [GlyphTexts.branchTo, GlyphTexts.glyphs, hlast]

-- A line is written in three pieces, and together they are the line of the placement.
theorem line_eq_pieces (above : List (Node Value)) (n : Node Value) :
    String.join (above.tail.map g.indentUnder) ++ (if above = [] then "" else g.branchTo n)
      ++ n.text ++ "\n" = g.line ⟨above, n⟩ := by
  cases above with
  | nil => simp [GlyphTexts.line, GlyphTexts.lead]
  | cons root between => simp [GlyphTexts.line, GlyphTexts.lead]

theorem draw_below (h : Below g above d) {n : Node Value} (hn : n.shape ≠ .binary) :
    (draw n : EStateM ε Directory Unit) d
      = .ok () (d.withLine (g.line ⟨above, n⟩) n.isLast) := by
  rw [← line_eq_pieces]
  exact draw_of_pieces (Node.isLastChild_eq_ok hn) (indent_below h) (branch_below h n)

theorem below_withLine (h : Below g above d) (line : String) (isLast : Bool) :
    Below g above (d.withLine line isLast) :=
  ⟨h.glyphs_eq, h.depth_eq, h.segments_eq⟩

-- The node that was drawn last is the one whose level is opened.
theorem below_enter (h : Below g above d) {n : Node Value} (hn : d.lastWasLast = n.isLast) :
    Below g (above ++ [n]) (enter d) := by
  have hdepth := h.depth_eq
  refine ⟨h.glyphs_eq, by simp [enter, hdepth], ?_⟩
  cases above with
  | nil =>
    -- the level below the root adds nothing to the indent
    have hsegments : d.segments = [] := by simpa using h.segments_eq
    simp [enter, hdepth, hsegments]
  | cons root between =>
    -- any other level adds the piece of the node that was drawn last
    have hopen : d.depth ≠ 0 := by simp [hdepth]
    have hpiece : (if d.lastWasLast then d.glyphs.blank else d.glyphs.pipe)
        = some (g.indentUnder n) := by
      rw [h.glyphs_eq, hn]
      cases hlast : n.isLast <;> simp [GlyphTexts.glyphs, GlyphTexts.indentUnder, hlast]
    simp only [enter, hopen, if_false, hpiece, List.reverse_cons, h.segments_eq]
    simp

theorem below_leave {n : Node Value} (h : Below g (above ++ [n]) d) : Below g above (leave d) := by
  have hdepth : d.depth = above.length + 1 := by
    rw [h.depth_eq, List.length_append, List.length_singleton]
  refine ⟨h.glyphs_eq, by simp [leave, hdepth], ?_⟩
  cases above with
  | nil => simp [leave, hdepth]
  | cons root between =>
    have hopen : d.depth - 1 ≠ 0 := by simp [hdepth]
    have hsegments := h.segments_eq
    simp only [List.cons_append, List.tail_cons, List.map_append, List.map_singleton] at hsegments
    -- the innermost piece is the last one once the stack is turned round
    unfold leave
    rw [if_neg hopen, ← List.dropLast_reverse, hsegments, List.dropLast_concat]
    rfl

theorem tryLeave_below {n : Node Value} (h : Below g (above ++ [n]) d) :
    (tryLeave : EStateM ε Directory Unit) d = .ok () (leave d) := by
  apply tryLeave_of_open
  simp [h.depth_eq]

end TreeTraversal.Directory
