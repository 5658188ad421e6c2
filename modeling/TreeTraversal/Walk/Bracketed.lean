import TreeTraversal.Visitor.Basic

/-!
# Walks that follow the structure of the tree

Pre-order, post-order, in-order and sibling pre-order tell their visitor about levels. Pre-order and
post-order reach children through slots, so they take a linked node for a leaf. In-order and sibling
pre-order read the links of one shape and fail at the first node of another, at the point where they
read.
-/

namespace TreeTraversal.Walk

variable {α ε σ : Type}

/-! ## Pre-order -/

mutual

/-- Visits a node, then the trees of its children inside a level. -/
def preOrder (v : Visitor α ε σ) : Node α → EStateM ε σ Unit
  | .binary d l r => do
    v.visit (.binary d l r)
    v.enter
    preOrderSlot v l
    preOrderSlot v r
    v.leave
  | .linked d f s => do
    v.visit (.linked d f s)
    v.enter
    v.leave
  | .wide d isLast slots => do
    v.visit (.wide d isLast slots)
    v.enter
    preOrderSlots v slots
    v.leave

def preOrderSlot (v : Visitor α ε σ) : Option (Node α) → EStateM ε σ Unit
  | none => pure ()
  | some n => preOrder v n

def preOrderSlots (v : Visitor α ε σ) : List (Option (Node α)) → EStateM ε σ Unit
  | [] => pure ()
  | slot :: rest => do
    preOrderSlot v slot
    preOrderSlots v rest

end

theorem preOrderSlots_eq_forM (v : Visitor α ε σ) (slots : List (Option (Node α))) :
    preOrderSlots v slots = (slots.filterMap id).forM (preOrder v) := by
  induction slots with
  | nil => simp [preOrderSlots]
  | cons slot rest ih => cases slot <;> simp [preOrderSlots, preOrderSlot, ih]

/-- Pre-order is the same for all shapes once a node's children are listed. -/
theorem preOrder_eq (v : Visitor α ε σ) (n : Node α) :
    preOrder v n = (do
      v.visit n
      v.enter
      n.children.forM (preOrder v)
      v.leave) := by
  cases n with
  | binary d l r =>
    cases l <;> cases r <;> simp [preOrder, preOrderSlot, Node.children, Node.slots]
  | linked d f s => simp [preOrder, Node.children, Node.slots]
  | wide d i slots => simp [preOrder, preOrderSlots_eq_forM, Node.children, Node.slots]

/-! ## Post-order -/

mutual

/-- Visits the trees of a node's children inside a level, then the node. -/
def postOrder (v : Visitor α ε σ) : Node α → EStateM ε σ Unit
  | .binary d l r => do
    v.enter
    postOrderSlot v l
    postOrderSlot v r
    v.leave
    v.visit (.binary d l r)
  | .linked d f s => do
    v.enter
    v.leave
    v.visit (.linked d f s)
  | .wide d isLast slots => do
    v.enter
    postOrderSlots v slots
    v.leave
    v.visit (.wide d isLast slots)

def postOrderSlot (v : Visitor α ε σ) : Option (Node α) → EStateM ε σ Unit
  | none => pure ()
  | some n => postOrder v n

def postOrderSlots (v : Visitor α ε σ) : List (Option (Node α)) → EStateM ε σ Unit
  | [] => pure ()
  | slot :: rest => do
    postOrderSlot v slot
    postOrderSlots v rest

end

theorem postOrderSlots_eq_forM (v : Visitor α ε σ) (slots : List (Option (Node α))) :
    postOrderSlots v slots = (slots.filterMap id).forM (postOrder v) := by
  induction slots with
  | nil => simp [postOrderSlots]
  | cons slot rest ih => cases slot <;> simp [postOrderSlots, postOrderSlot, ih]

/-- Post-order is the same for all shapes once a node's children are listed. -/
theorem postOrder_eq (v : Visitor α ε σ) (n : Node α) :
    postOrder v n = (do
      v.enter
      n.children.forM (postOrder v)
      v.leave
      v.visit n) := by
  cases n with
  | binary d l r =>
    cases l <;> cases r <;> simp [postOrder, postOrderSlot, Node.children, Node.slots]
  | linked d f s => simp [postOrder, Node.children, Node.slots]
  | wide d i slots => simp [postOrder, postOrderSlots_eq_forM, Node.children, Node.slots]

variable [IncludesErrors ε]

/-! ## In-order -/

mutual

/-- Visits the left side inside a level, the node, and the right side inside a level. A side that is
missing has its level all the same. The left link is read once its level is entered. -/
def inOrder (v : Visitor α ε σ) : Node α → EStateM ε σ Unit
  | .binary d l r => do
    v.enter
    inOrderSlot v l
    v.leave
    v.visit (.binary d l r)
    v.enter
    inOrderSlot v r
    v.leave
  | .linked .. => do
    v.enter
    Error.raise (.missingLink .linked .left)
  | .wide .. => do
    v.enter
    Error.raise (.missingLink .wide .left)

def inOrderSlot (v : Visitor α ε σ) : Option (Node α) → EStateM ε σ Unit
  | none => pure ()
  | some n => inOrder v n

end

/-! ## Sibling pre-order -/

mutual

/-- Visits a node, then inside a level the chain that begins at its first child. The link to that
child is read once the level is entered. The node's own siblings are not its business. -/
def siblingPreOrder (v : Visitor α ε σ) : Node α → EStateM ε σ Unit
  | .linked d f s => do
    v.visit (.linked d f s)
    v.enter
    siblingChain v f
    v.leave
  | .binary d l r => do
    v.visit (.binary d l r)
    v.enter
    Error.raise (.missingLink .binary .firstChild)
  | .wide d isLast slots => do
    v.visit (.wide d isLast slots)
    v.enter
    Error.raise (.missingLink .wide .firstChild)

/-- Sibling pre-order of a node and of all siblings after it. A node of another shape ends the chain
with its error before its sibling is asked for. -/
def siblingChain (v : Visitor α ε σ) : Option (Node α) → EStateM ε σ Unit
  | none => pure ()
  | some (.linked d f s) => do
    siblingPreOrder v (.linked d f s)
    siblingChain v s
  | some n => siblingPreOrder v n

end

end TreeTraversal.Walk
