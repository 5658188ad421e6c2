import TreeTraversal.Proofs.Plan.ShapeCheck

/-!
# Nodes that walks through slots miss

The shape check looks at the root alone. A linked node further down is taken for a leaf by every walk
through slots, and whatever is below it is missed without an error. Nothing else is missed, so that an
accepted walk is complete if and only if each linked node that it comes to is a leaf.
-/

namespace TreeTraversal

namespace Node

variable {α : Type}

/-! ## 1. What linked nodes hide -/

/-- The nodes below a linked node. Its slots show none of them. -/
def hidden (n : Node α) : List (Node α) :=
  if n.shape = .linked then n.offspring.flatMap nodes else []

theorem hidden_eq_nil_iff (n : Node α) :
    n.hidden = [] ↔ (n.shape = .linked → n.isLeaf = true) := by
  unfold hidden
  by_cases h : n.shape = .linked
  · have hlength : n.nodes.length = (n.offspring.flatMap nodes).length + 1 := by
      rw [nodes_eq, List.length_cons]
    rw [if_pos h, imp_iff_right h, isLeaf_iff_of_linked h, hlength, ← List.length_eq_zero_iff]
    omega
  · rw [if_neg h]
    exact iff_of_true rfl fun hlinked => absurd hlinked h

-- Each node is reached through slots, or is below one of the linked nodes that are.
theorem nodes_perm_slotNodes (n : Node α) :
    n.nodes.Perm (n.slotNodes ++ n.slotNodes.flatMap hidden) := by
  induction n using induction_offspring with
  | step n ih =>
    by_cases h : n.shape = .linked
    · rw [slotNodes_of_linked h, List.flatMap_singleton, hidden, if_pos h, nodes_eq]
      rfl
    · have hsame := offspring_eq_children h
      rw [hsame] at ih
      have hbelow : (n.children.flatMap nodes).Perm
          (n.children.flatMap fun c => c.slotNodes ++ c.slotNodes.flatMap hidden) :=
        List.Perm.flatMap_left _ ih
      have hsplit := List.flatMap_append_perm n.children slotNodes
        fun c => c.slotNodes.flatMap hidden
      rw [nodes_eq, hsame, slotNodes_eq, List.flatMap_cons, hidden, if_neg h, List.nil_append,
        List.flatMap_assoc]
      exact (hbelow.trans hsplit.symm).cons n

def slotNodesOf : Option (Node α) → List (Node α)
  | none => []
  | some root => root.slotNodes

theorem nodesOf_perm_slotNodesOf (root : Option (Node α)) :
    (nodesOf root).Perm (slotNodesOf root ++ (slotNodesOf root).flatMap hidden) := by
  cases root with
  | none => exact .refl _
  | some n => exact n.nodes_perm_slotNodes

end Node

namespace Plan

variable {α : Type} {s : Strategy}

/-! ## 2. Walks that miss them -/

theorem scriptOf_covers_slotNodesOf (hbinary : s.needsBinary = false)
    (hlinked : s.needsLinked = false) (root : Option (Node α)) :
    (s.scriptOf root).Covers (Node.slotNodesOf root) := by
  cases root with
  | none => exact ⟨rfl, .refl _⟩
  | some n => exact Strategy.script_covers_slotNodes hbinary hlinked n

-- What is reached through slots is all of the tree when no linked node in it hides anything. As it is
-- never more than that, numbers are enough for the converse.
theorem perm_nodesOf_iff {root : Option (Node α)} {visited : List (Node α)}
    (h : visited.Perm (Node.slotNodesOf root)) :
    visited.Perm (Node.nodesOf root) ↔
      ∀ n ∈ Node.slotNodesOf root, n.shape = .linked → n.isLeaf = true := by
  have hall := Node.nodesOf_perm_slotNodesOf root
  have hnone : (∀ n ∈ Node.slotNodesOf root, n.shape = .linked → n.isLeaf = true) ↔
      (Node.slotNodesOf root).flatMap Node.hidden = [] := by
    rw [List.flatMap_eq_nil_iff]
    exact forall₂_congr fun n _ => (Node.hidden_eq_nil_iff n).symm
  rw [hnone]
  constructor
  · intro hcomplete
    have hlength := (hcomplete.symm.trans h).length_eq
    have hlength_all := hall.length_eq
    rw [List.length_append] at hlength_all
    apply List.eq_nil_of_length_eq_zero
    omega
  · intro hnil
    rw [hnil, List.append_nil] at hall
    exact h.trans hall.symm

-- The check of the root keeps the root itself from hiding anything.
theorem root_hidden_eq_nil (hbinary : s.needsBinary = false) (hlinked : s.needsLinked = false)
    {root : Node α} (h : rootIssues s (some root) = []) : root.hidden = [] :=
  root.hidden_eq_nil_iff.mpr ((shapeIssues_of_slots hbinary hlinked root).mp h)

/-- **A walk through slots misses just what linked nodes hide.** An accepted plan of pre-order,
post-order or breadth-first comes, once each, to the nodes that are reached through slots, and counts
them. The others are below linked nodes that it has come to, none of which is the root. So it comes to
all nodes, and counts all, if and only if every linked node that it comes to is a leaf. -/
theorem slot_walk_complete_iff (s : Strategy) (hs : s ∈ [.breadthFirst, .preOrder, .postOrder])
    (config : Config) (hstrategy : config.strategy = .strategy s) (root : Option (Node α))
    (p : Plan α) (hp : create config root = .ok p) :
    let visited := (s.told root).1.filterMap Event.subject?
    let run := p.execute (Collecting.visitor : Visitor α Error (Collecting α)) {}
    run.outcome = .ok visited.length ∧
      run.state.2.visited = visited.map Node.data ∧
      visited.Perm (Node.slotNodesOf root) ∧
      (Node.nodesOf root).Perm (visited ++ visited.flatMap Node.hidden) ∧
      (∀ n ∈ root, n.hidden = []) ∧
      ((visited.Perm (Node.nodesOf root) ∧ run.outcome = .ok (Node.nodesOf root).length) ↔
        ∀ n ∈ Node.slotNodesOf root, n.shape = .linked → n.isLeaf = true) := by
  intro visited run
  have hslots : s.needsBinary = false ∧ s.needsLinked = false := by
    simp only [List.mem_cons, List.not_mem_nil, or_false] at hs
    rcases hs with rfl | rfl | rfl <;> exact ⟨rfl, rfl⟩
  rcases hslots with ⟨hbinary, hlinked⟩
  have hcovers := scriptOf_covers_slotNodesOf hbinary hlinked root
  have hroot := (suited_of_create hstrategy hp).2
  have hvisited : visited = (s.scriptOf root).visited := by
    unfold visited
    rw [Strategy.told_eq_script]
    rfl
  have hperm : visited.Perm (Node.slotNodesOf root) := by
    rw [hvisited]
    exact hcovers.2
  have hcollected := (Collecting.walk_visitor_eq_ok_iff (ε := Error) s root _).mpr ⟨hcovers.1, rfl⟩
  obtain ⟨houtcome, hstate⟩ : run.outcome = .ok visited.length ∧
      run.state.2 = Collecting.ofCalls (s.scriptOf root).calls := by
    unfold run
    rw [hvisited, eq_fresh_of_create hstrategy hp]
    exact execute_of_balanced hstrategy hcollected rfl
  refine ⟨houtcome, ?_, hperm, ?_, ?_, ?_⟩
  · rw [hstate, Collecting.visited_ofCalls, hvisited]
    rfl
  · have hhidden := hperm.flatMap_right Node.hidden
    exact (Node.nodesOf_perm_slotNodesOf root).trans (hperm.append hhidden).symm
  · intro n hn
    cases hn
    exact root_hidden_eq_nil hbinary hlinked hroot
  · rw [← perm_nodesOf_iff hperm, houtcome]
    constructor
    · exact And.left
    · intro hcomplete
      exact ⟨hcomplete, congrArg Except.ok hcomplete.length_eq⟩

/-- A tree of three shapes, in which linked nodes are leaves. -/
def openTree : Node Value :=
  .binary (.str "a") (some (.wide (.str "b") true [none, some (.linked (.str "c") none none)]))
    (some (.linked (.str "d") none none))

-- Breadth-first is let through on the tree of three shapes and counts its four nodes.
theorem open_tree_counted_in_full :
    ∃ p, create { strategy := .strategy .breadthFirst } (some openTree) = .ok p ∧
      (p.execute (Collecting.visitor : Visitor Value Error (Collecting Value)) {}).outcome
        = .ok 4 ∧
      ∀ n ∈ Node.nodesOf (some openTree),
        n ∈ (Strategy.breadthFirst.told (some openTree)).1.filterMap Event.subject? := by
  have hcreate : create { strategy := .strategy .breadthFirst } (some openTree)
      = .ok (fresh { strategy := .strategy .breadthFirst } (some openTree) .breadthFirst) := rfl
  have hleaves : ∀ n ∈ Node.slotNodesOf (some openTree), n.shape = .linked → n.isLeaf = true := by
    simp [openTree, Node.slotNodesOf, Node.slotNodes_eq, Node.children, Node.slots, Node.shape,
      Node.isLeaf]
  have hnodes : (Node.nodesOf (some openTree)).length = 4 := by
    simp [openTree, Node.nodesOf, Node.nodes_eq, Node.offspring, Node.children, Node.slots,
      Node.chain]
  have hcomplete := (slot_walk_complete_iff .breadthFirst (by simp) _ rfl (some openTree) _
    hcreate).2.2.2.2.2.mpr hleaves
  rw [hnodes] at hcomplete
  exact ⟨_, hcreate, hcomplete.2, fun n hn => hcomplete.1.mem_iff.mpr hn⟩

/-- A root that leads through a slot to a linked node with a child. -/
def obscuringTree : Node Value :=
  .wide (.str "a") false [some (.linked (.str "b") (some (.linked (.str "c") none none)) none)]

-- Pre-order is let through and stops at the linked node, so not every accepted walk comes to all nodes
-- and counts them.
theorem obscured_node_missed :
    (∃ p, create {} (some obscuringTree) = .ok p ∧
      (p.execute (Collecting.visitor : Visitor Value Error (Collecting Value)) {}).outcome
        = .ok 2) ∧
      (Node.nodesOf (some obscuringTree)).map Node.data = [.str "a", .str "b", .str "c"] ∧
      ¬ ∀ (s : Strategy) (config : Config) (root : Option (Node Value)) (p : Plan Value)
          (count : Nat),
        s ∈ [.breadthFirst, .preOrder, .postOrder] → config.strategy = .strategy s →
        create config root = .ok p →
        (p.execute (Collecting.visitor : Visitor Value Error (Collecting Value)) {}).outcome
          = .ok count →
        (∀ n ∈ Node.nodesOf root, n ∈ (s.told root).1.filterMap Event.subject?) ∧
          count = (Node.nodesOf root).length := by
  have hrun : ∃ p, create {} (some obscuringTree) = .ok p ∧
      (p.execute (Collecting.visitor : Visitor Value Error (Collecting Value)) {}).outcome
        = .ok 2 :=
    ⟨fresh {} (some obscuringTree) .preOrder, rfl, rfl⟩
  have hnodes : (Node.nodesOf (some obscuringTree)).map Node.data
      = [.str "a", .str "b", .str "c"] := by
    simp [obscuringTree, Node.nodesOf, Node.nodes_eq, Node.offspring, Node.children, Node.slots,
      Node.chain, Node.data]
  have hlength : (Node.nodesOf (some obscuringTree)).length = 3 := by
    rw [← List.length_map Node.data, hnodes]
    rfl
  refine ⟨hrun, hnodes, ?_⟩
  intro hall
  rcases hrun with ⟨p, hp, hcount⟩
  have hcomplete := (hall .preOrder {} (some obscuringTree) p 2 (by simp) rfl hp hcount).2
  omega

end Plan

end TreeTraversal
