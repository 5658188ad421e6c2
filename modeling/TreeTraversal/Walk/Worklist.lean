import TreeTraversal.Visitor.Basic

/-!
# Walks that keep a list of nodes to come

Breadth-first takes the next node from the front of a queue and puts its children at the end;
iterative pre-order takes it from a stack and puts its two sides back on top. Neither tells its
visitor about levels. Both end because each node visited is one less in the total size of the list.

The queue is held in two lists, its front and its back, the latter with the last node first.
-/

namespace TreeTraversal.Walk

variable {α ε σ : Type}

/-- A bound for the steps that a queue still takes: nodes count twice, so that turning the back of
the queue into a new front is a step too. -/
def queueSteps (front back : List (Node α)) : Nat :=
  2 * (Node.sizeAll front + Node.sizeAll back) + (if front.isEmpty then 1 else 0)

/-- Visits the nodes of a queue and all nodes below them, level by level. -/
def breadthFirst (v : Visitor α ε σ) : (front back : List (Node α)) → EStateM ε σ Unit
  | n :: front, back => do
    v.visit n
    breadthFirst v front (n.children.reverse ++ back)
  | [], n :: back => breadthFirst v (n :: back).reverse []
  | [], [] => pure ()
termination_by front back => queueSteps front back
decreasing_by
  · simp only [queueSteps, Node.sizeAll, Node.sizeAll_append, Node.sizeAll_reverse,
      Node.size_eq_children n, List.isEmpty_cons]
    split <;> simp <;> omega
  · simp [queueSteps, Node.sizeAll, Node.sizeAll_reverse, Node.sizeAll_append]
    omega

variable [IncludesErrors ε]

/-- Visits the nodes of a stack and all nodes below them, each before its left side and that before
its right side. The sides are read once the node is visited. -/
def iterativePreOrder (v : Visitor α ε σ) : (stack : List (Node α)) → EStateM ε σ Unit
  | [] => pure ()
  | .binary d l r :: rest => do
    v.visit (.binary d l r)
    iterativePreOrder v (l.toList ++ (r.toList ++ rest))
  | .linked d f s :: _ => do
    v.visit (.linked d f s)
    Error.raise (.missingLink .linked .right)
  | .wide d isLast slots :: _ => do
    v.visit (.wide d isLast slots)
    Error.raise (.missingLink .wide .right)
termination_by stack => Node.sizeAll stack
decreasing_by
  cases l <;> cases r <;> simp only [Option.toList, List.cons_append, List.nil_append,
    Node.sizeAll, Node.size, Node.sizeSlot] <;> omega

end TreeTraversal.Walk
