/-!
# Traversal strategies

The six orders in which a tree can be walked, with the three names each of them has: its key in
messages, its member name, and the name of the walk it selects. Aliases are looked up without
regard to ASCII case.
-/

namespace TreeTraversal

inductive Strategy where
  /-- Level by level, without level brackets. -/
  | breadthFirst
  /-- A parent before its children. -/
  | preOrder
  /-- A parent before its children, with an explicit stack: binary trees only, no brackets. -/
  | iterativePreOrder
  /-- The children before their parent. -/
  | postOrder
  /-- Left side, parent, right side: binary trees only. -/
  | inOrder
  /-- A parent before its children along first-child and next-sibling links. -/
  | siblingPreOrder
  deriving DecidableEq, Repr

namespace Strategy

/-- All strategies, in the order in which their aliases are listed. -/
def all : List Strategy :=
  [breadthFirst, preOrder, iterativePreOrder, postOrder, inOrder, siblingPreOrder]

def key : Strategy → String
  | breadthFirst => "bfs"
  | preOrder => "pre"
  | iterativePreOrder => "iterative_pre"
  | postOrder => "post"
  | inOrder => "in"
  | siblingPreOrder => "sibling"

/-- The long name, which is the name of the walk that the strategy selects. -/
def walkName : Strategy → String
  | breadthFirst => "breadth_first"
  | preOrder => "pre_order"
  | iterativePreOrder => "iterative_pre_order"
  | postOrder => "post_order"
  | inOrder => "in_order"
  | siblingPreOrder => "sibling_pre_order"

def memberName : Strategy → String
  | breadthFirst => "BREADTH_FIRST"
  | preOrder => "PRE_ORDER"
  | iterativePreOrder => "ITERATIVE_PRE_ORDER"
  | postOrder => "POST_ORDER"
  | inOrder => "IN_ORDER"
  | siblingPreOrder => "SIBLING_PRE_ORDER"

/-- Every name a strategy may be asked for by: first its key, then its long name. -/
def aliases : List (String × Strategy) :=
  all.flatMap fun s => [(s.key, s), (s.walkName, s)]

/-- The strategy with this alias. Only ASCII letters are folded: an alias holds no letter that a
character outside ASCII has as its lower case. -/
def ofAlias? (name : String) : Option Strategy :=
  aliases.lookup (name.map Char.toLower)

/-- Strategies that read the left and right links of every node. -/
def needsBinary : Strategy → Bool
  | iterativePreOrder | inOrder => true
  | _ => false

/-- Strategies that read the first-child and next-sibling links of every node. -/
def needsLinked : Strategy → Bool
  | siblingPreOrder => true
  | _ => false

end Strategy

end TreeTraversal
