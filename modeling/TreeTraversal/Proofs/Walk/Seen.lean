import TreeTraversal.Proofs.Node.OrderedTree
import TreeTraversal.Proofs.Walk.Interrupted
import TreeTraversal.Proofs.Walk.Levelled

/-!
# What walks show of a tree

A collecting visitor hears the hooks of a walk, with nodes reduced to their data. All that it can hear of
a tree is the ordered tree of what the walk finds in the levels of each node: holes and the shapes of
nodes are left out.
-/

namespace TreeTraversal.Strategy

variable {α : Type} {s : Strategy} {n : Node α}

/-! ## 1. Hooks that are heard -/

theorem heard_eq (s : Strategy) (root : Option (Node α)) : s.heard root = (s.scriptOf root).heard := by
  rw [heard, told_eq_script]
  rfl

/-- What a walk leaves in a collecting visitor is what is heard of it, and nothing else. -/
theorem stateLeft_collecting {ε : Type} [IncludesErrors ε] (s : Strategy) (root : Option (Node α)) :
    stateLeft (s.walk (Collecting.visitor : Visitor α ε (Collecting α)) root) {}
      = ⟨(s.heard root).toArray⟩ := by
  have hcollected := Collecting.replay_visitor (ε := ε) (s.scriptOf root).calls {}
  rw [walk_eq_follow, Visitor.stateLeft_follow_of_ok hcollected, heard_eq]
  simp [Script.heard]

/-- The hooks that are heard of a level with these nodes. -/
def heardLevel (s : Strategy) (nodes : List (Node α)) : List (Event α) :=
  .enter :: (nodes.flatMap fun m => s.heard (some m)) ++ [.leave]

theorem map_levelCalls (s : Strategy) (nodes : List (Node α)) :
    (s.levelCalls nodes).map (Event.map Node.data) = s.heardLevel nodes := by
  have hnodes : (nodes.flatMap fun m => s.heard (some m))
      = nodes.flatMap fun m => (s.script m).calls.map (Event.map Node.data) :=
    List.flatMap_congr fun m _ => heard_some s m
  rw [levelCalls, heardLevel, hnodes]
  simp [Event.map, List.map_flatMap]

theorem heard_of_levelled (h : s.Levelled n) :
    s.heard (some n) = (s.levelsBefore n).flatMap s.heardLevel
      ++ .visit n.data :: (s.levelsAfter n).flatMap s.heardLevel := by
  have hlevels : ∀ levels : List (List (Node α)),
      (levels.flatMap s.levelCalls).map (Event.map Node.data) = levels.flatMap s.heardLevel := by
    intro levels
    rw [List.map_flatMap]
    exact List.flatMap_congr fun nodes _ => map_levelCalls s nodes
  rw [heard_some, script_of_levelled h, Script.heard, List.map_append, List.map_cons,
    hlevels, hlevels]
  rfl

/-! ## 2. Trees that are seen -/

/-- The data of a node and of what is below it, as a walk finds it in the levels of each node. -/
def seen (s : Strategy) (n : Node α) : OrderedTree α :=
  .node n.data ((s.offspring n).attach.map fun ⟨m, _⟩ => seen s m)
termination_by sizeOf n
decreasing_by exact Node.sizeOf_lt_of_mem_offspring (mem_offspring ‹_›)

theorem seen_eq (s : Strategy) (n : Node α) :
    s.seen n = .node n.data ((s.offspring n).map s.seen) := by
  rw [seen]
  simp

/-- Pre-order and sibling pre-order are heard alike where they see the same. -/
theorem heard_eq_preOrderHooks (hs : s = .preOrder ∨ s = .siblingPreOrder) (h : s.Levelled n) :
    s.heard (some n) = (s.seen n).preOrderHooks := by
  induction n using Node.induction_offspring with
  | step n ih =>
    have hbelow : ((s.offspring n).flatMap fun m => s.heard (some m))
        = (s.offspring n).flatMap fun m => (s.seen m).preOrderHooks :=
      List.flatMap_congr fun m hm => ih m (mem_offspring hm) (h.of_mem_offspring hm)
    -- the one level of the node comes after it
    have hlevels : s.levelsBefore n = [] ∧ s.levelsAfter n = [s.offspring n] := by
      rcases hs with rfl | rfl
      · exact ⟨rfl, by rw [preOrder_offspring]; rfl⟩
      · exact ⟨rfl, by rw [siblingPreOrder_offspring]; rfl⟩
    rw [heard_of_levelled h, hlevels.1, hlevels.2, seen_eq, OrderedTree.preOrderHooks_node,
      List.flatMap_map, ← hbelow]
    simp [heardLevel]

theorem heard_eq_postOrderHooks (n : Node α) :
    postOrder.heard (some n) = (postOrder.seen n).postOrderHooks := by
  induction n using Node.induction_offspring with
  | step n ih =>
    have hbelow : ((postOrder.offspring n).flatMap fun m => postOrder.heard (some m))
        = (postOrder.offspring n).flatMap fun m => (postOrder.seen m).postOrderHooks :=
      List.flatMap_congr fun m hm => ih m (mem_offspring hm)
    rw [heard_of_levelled (.postOrder n), seen_eq, OrderedTree.postOrderHooks_node,
      List.flatMap_map, ← hbelow, postOrder_offspring]
    simp [levelsBefore, levelsAfter, heardLevel]

-- Pre-order and post-order both reach children through slots.
theorem postOrder_seen (n : Node α) : postOrder.seen n = preOrder.seen n := by
  induction n using Node.induction_offspring with
  | step n ih =>
    rw [seen_eq, seen_eq, preOrder_offspring, postOrder_offspring]
    apply congrArg
    exact List.map_congr_left fun m hm => ih m (Node.mem_offspring_of_mem_children hm)

/-- Queues of nodes that look the same are emptied in the same way. -/
theorem levelOrder_congr {queue queue' : List (Node α)}
    (h : queue.map preOrder.seen = queue'.map preOrder.seen) :
    (Node.levelOrder queue).map Node.data = (Node.levelOrder queue').map Node.data := by
  induction queue using Node.levelOrder.induct generalizing queue' with
  | case1 =>
    rw [List.map_nil, eq_comm, List.map_eq_nil_iff] at h
    rw [h]
  | case2 n queue ih =>
    cases queue' with
    | nil => cases h
    | cons m queue' =>
      rw [List.map_cons, List.map_cons, List.cons.injEq, seen_eq, seen_eq, preOrder_offspring,
        preOrder_offspring, OrderedTree.node.injEq] at h
      have hqueue : (queue ++ n.children).map preOrder.seen
          = (queue' ++ m.children).map preOrder.seen := by
        rw [List.map_append, List.map_append, h.2, h.1.2]
      rw [Node.levelOrder, Node.levelOrder, List.map_cons, List.map_cons, h.1.1, ih hqueue]

theorem breadthFirst_heard_congr {m : Node α} (h : preOrder.seen n = preOrder.seen m) :
    breadthFirst.heard (some n) = breadthFirst.heard (some m) := by
  have hqueue : ([n].map preOrder.seen) = [m].map preOrder.seen := congrArg (fun t => [t]) h
  have hvisits : ∀ root : Node α, breadthFirst.heard (some root)
      = ((Node.levelOrder [root]).map Node.data).map .visit := by
    intro root
    rw [heard_some, script, Script.heard, List.map_map, List.map_map]
    rfl
  rw [hvisits, hvisits, levelOrder_congr hqueue]

end TreeTraversal.Strategy
