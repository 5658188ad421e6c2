import TreeTraversal.Walk.Bracketed
import TreeTraversal.Walk.Worklist

/-!
# Walking a tree

One entry for all strategies. A tree without a root has nothing to walk.
-/

namespace TreeTraversal

variable {α ε σ : Type} [IncludesErrors ε]

/-- Walks the tree below a node in the order of a strategy. -/
def Strategy.walkNode (s : Strategy) (v : Visitor α ε σ) (root : Node α) : EStateM ε σ Unit :=
  match s with
  | .breadthFirst => Walk.breadthFirst v [root] []
  | .preOrder => Walk.preOrder v root
  | .iterativePreOrder => Walk.iterativePreOrder v [root]
  | .postOrder => Walk.postOrder v root
  | .inOrder => Walk.inOrder v root
  | .siblingPreOrder => Walk.siblingPreOrder v root

/-- Walks a tree that may be empty. -/
def Strategy.walk (s : Strategy) (v : Visitor α ε σ) : Option (Node α) → EStateM ε σ Unit
  | none => pure ()
  | some root => s.walkNode v root

end TreeTraversal
