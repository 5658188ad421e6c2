/-!
# Node shapes

The three shapes of nodes and the links that only some of them have.
-/

namespace TreeTraversal

/-- How a node keeps its children. -/
inductive Shape where
  /-- A left and a right slot. -/
  | binary
  /-- A first child, and siblings that follow it. -/
  | linked
  /-- Any number of slots. -/
  | wide
  deriving DecidableEq, Repr

def Shape.name : Shape → String
  | binary => "BinaryNode"
  | linked => "LinkedNode"
  | wide => "WideNode"

def Shape.rootName : Option Shape → String
  | none => "NoneType"
  | some s => s.name

/-- A link to another node that a walk follows without asking for the list of children. -/
inductive Link where
  | left
  | right
  | firstChild
  | nextSibling
  deriving DecidableEq, Repr

def Link.name : Link → String
  | left => "left"
  | right => "right"
  | firstChild => "first_child"
  | nextSibling => "_next_sibling"

end TreeTraversal
