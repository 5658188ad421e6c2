import TreeTraversal.Node.Store

/-!
# Child cursors

A cursor goes through the children of a stored linked node one at a time. It reads no link before it
is asked for the child behind it, so it sees how the chain is wired at that moment.
-/

namespace TreeTraversal

inductive ChildCursor where
  /-- Before the first child of this node. -/
  | before (parent : NodeId)
  /-- After this child. -/
  | after (child : NodeId)
  /-- At the end, for good. -/
  | ended
  deriving DecidableEq, Repr

namespace Store

variable {α : Type}

/-- The first child of a stored node. Only linked nodes have that link. -/
def firstChild (s : Store α) (id : NodeId) : Except Error (Option NodeId) :=
  match (s.get? id).map Entry.cell with
  | none => .ok none
  | some (.linked _ f) => .ok f
  | some cell => .error (.missingLink cell.shape .firstChild)

/-- The sibling after a stored node. A node of another shape has that link only if it was chained. -/
def nextSibling (s : Store α) (id : NodeId) : Except Error (Option NodeId) :=
  match s.get? id with
  | none => .ok none
  | some ⟨cell, .unset⟩ => .error (.missingLink cell.shape .nextSibling)
  | some ⟨_, .set next⟩ => .ok next

/-- What a cursor finds next. -/
def behind (s : Store α) : ChildCursor → Except Error (Option NodeId)
  | .before parent => s.firstChild parent
  | .after child => s.nextSibling child
  | .ended => .ok none

/-- Moves a cursor to the next child and answers that child, or ends the cursor. -/
def advance (s : Store α) (c : ChildCursor) : Except Error (Option NodeId) × ChildCursor :=
  match s.behind c with
  | .ok (some child) => (.ok (some child), .after child)
  | .ok none => (.ok none, .ended)
  | .error e => (.error e, .ended)

/-- The children that a cursor still finds, at most `limit` of them. -/
def remaining (s : Store α) : (limit : Nat) → ChildCursor → Except Error (List NodeId)
  | 0, _ => .ok []
  | limit + 1, c =>
    match s.behind c with
    | .ok none => .ok []
    | .ok (some child) => (s.remaining limit (.after child)).map (child :: ·)
    | .error e => .error e

/-- The children of a stored linked node in the order of their chain. A chain that ends passes no node
twice, so it is no longer than the store is large. -/
def chainedChildren (s : Store α) (parent : NodeId) : Except Error (List NodeId) :=
  s.remaining s.entries.size (.before parent)

end Store

end TreeTraversal
