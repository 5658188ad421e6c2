import TreeTraversal.Proofs.Drawing.Rendering
import TreeTraversal.Proofs.Node.Position

/-!
# Reading a drawing

A drawing in four single characters can be read back, if neither branch is a piece of indent and no
text goes over the end of its line. The first character that is not a piece of indent is the branch,
so that it tells how deep the line is, and what stands behind it is the text of the node, even if the
text looks like more of the drawing. Depths and texts in pre-order determine the tree.
-/

namespace TreeTraversal

/-! ## 1. Characters to draw with -/

structure GlyphChars where
  last : Char
  branch : Char
  pipe : Char
  blank : Char

namespace GlyphChars

variable (c : GlyphChars)

def texts : GlyphTexts :=
  ⟨.singleton c.last, .singleton c.branch, .singleton c.pipe, .singleton c.blank⟩

def isIndent (x : Char) : Bool :=
  x == c.pipe || x == c.blank

/-- None of the characters ends a line, and neither branch is a piece of indent. -/
structure Distinct : Prop where
  newline_not_mem : '\n' ∉ [c.last, c.branch, c.pipe, c.blank]
  last_not_indent : c.isIndent c.last = false
  branch_not_indent : c.isIndent c.branch = false

/-! ## 2. A reader -/

/-- Reads a line below the root's, as a depth and a text. -/
def readLine (line : List Char) : Nat × String :=
  ((line.takeWhile c.isIndent).length + 1, .ofList (line.dropWhile c.isIndent).tail)

/-- Reads a drawing. The root's line is nothing but its text. -/
def read (drawing : String) : List (Nat × String) :=
  match (drawing.toList.splitOn '\n').dropLast with
  | [] => []
  | root :: below => (0, .ofList root) :: below.map c.readLine

/-! ## 3. Lines -/

/-- The character of indent that a node puts before the lines below it. -/
def indentChar {α : Type} (n : Node α) : Char :=
  if n.isLast then c.blank else c.pipe

def branchChar {α : Type} (n : Node α) : Char :=
  if n.isLast then c.last else c.branch

/-- What a line holds before its end. -/
def content (p : Placement Value) : List Char :=
  match p.above with
  | [] => p.node.text.toList
  | _ :: between => between.map c.indentChar ++ c.branchChar p.node :: p.node.text.toList

variable {c}

theorem toList_indentUnder (n : Node Value) :
    (c.texts.indentUnder n).toList = [c.indentChar n] := by
  unfold GlyphTexts.indentUnder indentChar
  cases n.isLast <;> exact String.toList_singleton _

theorem toList_branchTo (n : Node Value) : (c.texts.branchTo n).toList = [c.branchChar n] := by
  unfold GlyphTexts.branchTo branchChar
  cases n.isLast <;> exact String.toList_singleton _

theorem toList_join_indentUnder (between : List (Node Value)) :
    (String.join (between.map c.texts.indentUnder)).toList = between.map c.indentChar := by
  rw [String.toList_join, List.flatMap_map, List.map_eq_flatMap]
  exact List.flatMap_congr fun n _ => toList_indentUnder n

theorem toList_line (p : Placement Value) :
    (c.texts.line p).toList = c.content p ++ ['\n'] := by
  rcases p with ⟨_ | ⟨root, between⟩, n⟩
  · simp [GlyphTexts.line, GlyphTexts.lead, content]
  · have hindent := toList_join_indentUnder (c := c) between
    have hbranch := toList_branchTo (c := c) n
    unfold GlyphTexts.line GlyphTexts.lead content
    rw [String.toList_append, String.toList_append, String.toList_append, hindent, hbranch]
    simp

theorem indentChar_mem (n : Node Value) :
    c.indentChar n ∈ [c.last, c.branch, c.pipe, c.blank] := by
  unfold indentChar
  cases n.isLast <;> simp

theorem branchChar_mem (n : Node Value) :
    c.branchChar n ∈ [c.last, c.branch, c.pipe, c.blank] := by
  unfold branchChar
  cases n.isLast <;> simp

theorem isIndent_indentChar (n : Node Value) : c.isIndent (c.indentChar n) = true := by
  unfold indentChar isIndent
  cases n.isLast <;> simp

theorem Distinct.isIndent_branchChar (h : c.Distinct) (n : Node Value) :
    c.isIndent (c.branchChar n) = false := by
  unfold branchChar
  cases n.isLast
  · exact h.branch_not_indent
  · exact h.last_not_indent

theorem Distinct.newline_not_mem_content (h : c.Distinct) {p : Placement Value}
    (htext : '\n' ∉ p.node.text.toList) : '\n' ∉ c.content p := by
  rcases p with ⟨_ | ⟨root, between⟩, n⟩
  · exact htext
  · intro hmem
    have hglyph := h.newline_not_mem
    rcases List.mem_append.mp hmem with hindent | hrest
    · rcases List.mem_map.mp hindent with ⟨m, -, hm⟩
      rw [← hm] at hglyph
      exact hglyph (indentChar_mem m)
    · rcases List.mem_cons.mp hrest with hbranch | hin
      · rw [hbranch] at hglyph
        exact hglyph (branchChar_mem n)
      · exact htext hin

def entry (p : Placement Value) : Nat × String :=
  (p.above.length, p.node.text)

-- The indent ends at the branch, whatever the text looks like.
theorem Distinct.readLine_content (h : c.Distinct) {p : Placement Value} (hp : p.above ≠ []) :
    c.readLine (c.content p) = entry p := by
  rcases p with ⟨_ | ⟨root, between⟩, n⟩
  · exact absurd rfl hp
  · have hindent : ∀ x ∈ between.map c.indentChar, c.isIndent x = true := by
      intro x hx
      rcases List.mem_map.mp hx with ⟨m, -, rfl⟩
      exact isIndent_indentChar m
    have hbranch := h.isIndent_branchChar n
    unfold readLine content
    rw [List.takeWhile_append_of_pos hindent, List.dropWhile_append_of_pos hindent,
      List.takeWhile_cons_of_neg (by simp [hbranch]), List.dropWhile_cons_of_neg (by simp [hbranch])]
    simp [entry, String.ofList_toList]

/-! ## 4. Drawings -/

-- Each line ends by the only newline in it, so that splitting finds the lines again.
theorem splitOn_newline (lines : List (List Char)) (h : ∀ line ∈ lines, '\n' ∉ line) :
    (lines.flatMap (· ++ ['\n'])).splitOn '\n' = lines ++ [[]] := by
  induction lines with
  | nil => exact List.splitOn_nil '\n'
  | cons line rest ih =>
    have hline : ∀ x ∈ line, (x == '\n') = false := by
      intro x hx
      have hne : x ≠ '\n' := by
        intro heq
        rw [heq] at hx
        exact h line List.mem_cons_self hx
      exact beq_false_of_ne hne
    have hrest := ih fun l hl => h l (List.mem_cons_of_mem line hl)
    rw [List.flatMap_cons, List.append_assoc, List.singleton_append]
    unfold List.splitOn at hrest ⊢
    rw [List.splitOnP_append_cons_of_forall_mem hline _ (by rfl), hrest]
    rfl

end GlyphChars

namespace Node

variable {α : Type}

-- The depth of a placement is the number of the nodes above it.
theorem placements_map_entry (above : List (Node Value)) (n : Node Value) :
    (n.placements above).map GlyphChars.entry = n.listing Node.text above.length := by
  induction n using induction_offspring generalizing above with
  | step n ih =>
    have hbelow : n.offspring.flatMap (fun m => (m.placements (above ++ [n])).map GlyphChars.entry)
        = n.offspring.flatMap (listing Node.text (above.length + 1)) := by
      apply List.flatMap_congr
      intro m hm
      rw [ih m hm, List.length_append, List.length_singleton]
    rw [placements_eq, listing_eq, List.map_cons, List.map_flatMap, hbelow]
    rfl

theorem above_ne_nil_of_mem_placements {above : List (Node α)} {n : Node α} {p : Placement α}
    (habove : above ≠ []) (hp : p ∈ n.placements above) : p.above ≠ [] := by
  induction n using induction_offspring generalizing above with
  | step n ih =>
    rw [placements_eq, List.mem_cons, List.mem_flatMap] at hp
    rcases hp with rfl | ⟨m, hm, hp⟩
    · exact habove
    · exact ih m hm (by simp) hp

end Node

namespace GlyphChars

variable {c : GlyphChars}

theorem toList_drawing (root : Node Value) :
    (c.texts.drawing root).toList
      = ((root.placements []).map c.content).flatMap (· ++ ['\n']) := by
  unfold GlyphTexts.drawing
  rw [String.toList_join, List.flatMap_map, List.flatMap_map]
  exact List.flatMap_congr fun p _ => toList_line p

/-- The reader finds the depths and the texts that went into a drawing. -/
theorem Distinct.read_drawing (h : c.Distinct) {root : Node Value}
    (htexts : ∀ n ∈ root.nodes, '\n' ∉ n.text.toList) :
    c.read (c.texts.drawing root) = root.listing Node.text 0 := by
  have hlines : ∀ line ∈ (root.placements []).map c.content, '\n' ∉ line := by
    intro line hline
    rcases List.mem_map.mp hline with ⟨p, hp, rfl⟩
    have hnode : p.node ∈ root.nodes := by
      rw [← Node.placements_map_node []]
      exact List.mem_map_of_mem hp
    exact h.newline_not_mem_content (htexts p.node hnode)
  have hbelow : ∀ p ∈ root.offspring.flatMap (Node.placements [root]),
      c.readLine (c.content p) = entry p := by
    intro p hp
    rcases List.mem_flatMap.mp hp with ⟨m, -, hp⟩
    exact h.readLine_content (Node.above_ne_nil_of_mem_placements (by simp) hp)
  have hplaced : root.placements [] = ⟨[], root⟩ :: root.offspring.flatMap (Node.placements [root]) :=
    Node.placements_eq [] root
  have hroot : String.ofList (c.content ⟨[], root⟩) = root.text := String.ofList_toList
  have hlisting : (root.placements []).map entry = root.listing Node.text 0 :=
    Node.placements_map_entry [] root
  unfold read
  rw [toList_drawing, splitOn_newline _ hlines, List.dropLast_concat, ← hlisting, hplaced,
    List.map_cons, List.map_cons]
  show (0, String.ofList (c.content ⟨[], root⟩)) :: (List.map c.content _).map c.readLine = _
  rw [hroot, List.map_map, entry]
  exact congrArg ((0, root.text) :: ·) (List.map_congr_left hbelow)

/-! ## 5. Drawings that tell trees apart -/

theorem visible_texts (c : GlyphChars) : c.texts.Visible := by
  intro text htext
  simp only [texts, List.mem_cons, List.not_mem_nil, or_false] at htext
  rcases htext with rfl | rfl | rfl | rfl <;> exact String.singleton_ne_empty

end GlyphChars

/-- Glyphs that are single characters, such that drawings in them can be read. -/
def Glyphs.Legible (g : Glyphs) : Prop :=
  ∃ c : GlyphChars, c.texts.glyphs = g ∧ c.Distinct

theorem Glyphs.legible_boxDrawing : boxDrawing.Legible :=
  ⟨⟨'┗', '┣', '┃', ' '⟩, by decide, by decide, by decide, by decide⟩

theorem Glyphs.legible_ascii : ascii.Legible :=
  ⟨⟨'\x60', '+', '|', ' '⟩, by decide, by decide, by decide, by decide⟩

/-- A tree of linked nodes whose texts each fit on a line. -/
structure Node.OfLines (root : Node Value) : Prop where
  uniform : root.Uniform .linked
  newline_not_mem : ∀ n ∈ root.nodes, '\n' ∉ n.text.toList

theorem GlyphChars.renderTree_of_ofLines (c : GlyphChars) {root : Node Value} (h : root.OfLines) :
    (renderTree (some root) c.texts.glyphs).outcome = .ok (c.texts.drawing root) :=
  renderTree_of_drawable c.visible_texts (Directory.drawable_of_linked h.uniform)

/-- **A drawing determines its tree.** Trees of linked nodes are always drawn, and if two of them have
the same drawing in legible glyphs, they have the same positions and the same text at each of them,
even if some texts look like indent and branches, or are empty. -/
theorem renderTree_determines_tree :
    Glyphs.boxDrawing.Legible ∧ Glyphs.ascii.Legible ∧
      ∀ g : Glyphs, g.Legible → ∀ a b : Node Value, a.OfLines → b.OfLines →
        (∃ text, (renderTree (some a) g).outcome = .ok text) ∧
          ((renderTree (some a) g).outcome = (renderTree (some b) g).outcome →
            ∀ position, (a.at? position).map Node.text = (b.at? position).map Node.text) := by
  refine ⟨Glyphs.legible_boxDrawing, Glyphs.legible_ascii, ?_⟩
  intro g hg a b ha hb
  obtain ⟨c, rfl, hc⟩ := hg
  have hrender_a := c.renderTree_of_ofLines ha
  have hrender_b := c.renderTree_of_ofLines hb
  refine ⟨⟨_, hrender_a⟩, ?_⟩
  intro hsame
  rw [hrender_a, hrender_b, Except.ok.injEq] at hsame
  have hlisting : a.listing Node.text 0 = b.listing Node.text 0 := by
    rw [← hc.read_drawing ha.newline_not_mem, ← hc.read_drawing hb.newline_not_mem, hsame]
  exact congrFun (Node.view_eq_of_listing_eq hlisting)

/-- A root with one child, and perhaps a sibling after it. -/
def rootOver (data : Value) (after : Option (Node Value)) : Node Value :=
  .linked (.str "r") (some (.linked data none none)) after

theorem ofLines_rootOver {d : Value} (h : '\n' ∉ d.text.toList) (after : Option (Node Value)) :
    (rootOver d after).OfLines := by
  have hnodes : (rootOver d after).nodes = [rootOver d after, .linked d none none] := by
    simp [rootOver, Node.nodes_eq, Node.offspring, Node.chain]
  constructor <;> intro n hn <;> rw [hnodes, List.mem_pair] at hn
  · rcases hn with rfl | rfl <;> rfl
  · rcases hn with rfl | rfl
    · show '\n' ∉ (Value.str "r").text.toList
      decide
    · exact h

-- Data is drawn by its text, and a sibling of the root is not drawn.
theorem number_drawn_as_digit :
    let number := rootOver (.int 1) none
    let digit := rootOver (.str "1") (some (.linked (.str "s") none none))
    (renderTree (some number) .ascii).outcome = .ok "r\n\x601\n" ∧
      (renderTree (some digit) .ascii).outcome = .ok "r\n\x601\n" ∧
      ∀ position, (number.at? position).map Node.text = (digit.at? position).map Node.text := by
  have hnumber := ofLines_rootOver (d := .int 1) (by decide) none
  have hdigit := ofLines_rootOver (d := .str "1") (by decide) (some (.linked (.str "s") none none))
  exact ⟨rfl, rfl, (renderTree_determines_tree.2.2 .ascii Glyphs.legible_ascii _ _ hnumber
    hdigit).2 rfl⟩

end TreeTraversal
