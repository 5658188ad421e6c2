import Mathlib.Data.List.Basic
import TreeTraversal.Glyphs
import TreeTraversal.Proofs.Node.Offspring

/-!
# The lines of a drawing

What a drawing of a tree should look like, said on the tree and without any visitor. There is one line
for each node, and the lines stand in pre-order. The root's line is its text. Any other line has one
piece of indent for each node between the root and its own, outermost first, and then a branch.
-/

namespace TreeTraversal

namespace Node

variable {α : Type}

/-- Whether the node says that it is a last child. -/
def isLast (n : Node α) : Bool :=
  match n.isLastChild with
  | .ok isLast => isLast
  | .error _ => false

-- A node with a shape that keeps an order of siblings can tell whether it is the last.
theorem isLastChild_eq_ok {n : Node α} (h : n.shape ≠ .binary) : n.isLastChild = .ok n.isLast := by
  cases n with
  | binary d l r => exact absurd rfl h
  | linked d f s => rfl
  | wide d isLast slots => rfl

end Node

/-- A node in a tree, with the nodes above it from the root downwards. -/
structure Placement (α : Type) where
  above : List (Node α)
  node : Node α

namespace Node

variable {α : Type}

/-- The placements of a node and of all nodes below it, each before those of its offspring. -/
def placements (above : List (Node α)) (n : Node α) : List (Placement α) :=
  ⟨above, n⟩ :: n.offspring.attach.flatMap fun ⟨m, _⟩ => placements (above ++ [n]) m
termination_by sizeOf n
decreasing_by exact sizeOf_lt_of_mem_offspring ‹_›

theorem placements_eq (above : List (Node α)) (n : Node α) :
    n.placements above = ⟨above, n⟩ :: n.offspring.flatMap (placements (above ++ [n])) := by
  unfold placements
  simp

-- Every node of the tree is placed once, in pre-order.
theorem placements_map_node (above : List (Node α)) (n : Node α) :
    (n.placements above).map Placement.node = n.nodes := by
  induction n using induction_offspring generalizing above with
  | step n ih =>
    have hbelow : n.offspring.flatMap (fun m => (m.placements (above ++ [n])).map Placement.node)
        = n.offspring.flatMap nodes :=
      List.flatMap_congr fun m hm => ih m hm (above ++ [n])
    rw [placements_eq, List.map_cons, List.map_flatMap, hbelow, nodes_eq]

end Node

/-- The texts of a directory drawing, all of them present. -/
structure GlyphTexts where
  last : String
  branch : String
  pipe : String
  blank : String

namespace GlyphTexts

variable (g : GlyphTexts)

/-- The texts as glyphs. -/
def glyphs : Glyphs :=
  ⟨some g.last, some g.branch, some g.pipe, some g.blank⟩

/-- The piece of indent that a node puts before the lines below it. -/
def indentUnder {α : Type} (n : Node α) : String :=
  if n.isLast then g.blank else g.pipe

/-- The branch that leads to a node. -/
def branchTo {α : Type} (n : Node α) : String :=
  if n.isLast then g.last else g.branch

/-- What the line of a placement begins with, up to the text of the node. -/
def lead {α : Type} (p : Placement α) : String :=
  match p.above with
  | [] => ""
  | _ :: between => String.join (between.map g.indentUnder) ++ g.branchTo p.node

/-- The line of a placement. -/
def line (p : Placement Value) : String :=
  g.lead p ++ p.node.text ++ "\n"

/-- The drawing of a tree. -/
def drawing (root : Node Value) : String :=
  String.join ((root.placements []).map g.line)

theorem join_flatMap {β : Type} (items : List β) (texts : β → List String) :
    String.join (items.flatMap texts) = String.join (items.map fun b => String.join (texts b)) := by
  induction items with
  | nil => rfl
  | cons b rest ih => rw [List.flatMap_cons, String.join_append, ih, List.map_cons, String.join_cons]

end GlyphTexts

end TreeTraversal
