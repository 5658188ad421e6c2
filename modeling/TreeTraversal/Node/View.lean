import TreeTraversal.Node.Store

/-!
# The tree below a stored node

Walks work on trees, and what a walk can reach from a stored node depends on the node's shape alone.
From a linked node only chains of siblings lead on, and a walk along chains fails at the first node
of another shape. From the other nodes only slots lead on, and a walk through slots takes linked
nodes for leaves. `Store.node?` reads off just that; where it stops, a link leads to a stub.

A stored node that many paths lead to is read once, so that shared nodes are shared in the tree.
Sibling links can lead round in a circle; a node that is met again behind its own links is read
again a few times, and then the circle is cut.
-/

namespace TreeTraversal

/-- A node without anything behind its links. -/
def Cell.stub {α : Type} : Cell α → Node α
  | binary data _ _ => .binary data none none
  | linked data _ => .linked data none none
  | wide data isLast _ => .wide data isLast []

namespace Store

variable {α : Type}

/-- A stored node without anything behind its links. -/
def stub? (s : Store α) (id : NodeId) : Option (Node α) :=
  (s.get? id).map fun entry => entry.cell.stub

/-- What is at the end of a link, without anything behind that. -/
def stubAt (s : Store α) (link : Option NodeId) : Option (Node α) :=
  link.bind s.stub?

/-- The tree of a node, given what stands in its slots. The links of a linked node lead to stubs. -/
def treeOver (s : Store α) (inSlot : Option NodeId → Option (Node α)) (entry : Entry α) : Node α :=
  match entry.cell with
  | .binary data l r => .binary data (inSlot l) (inSlot r)
  | .linked data first => .linked data (s.stubAt first) (s.stubAt entry.sibling.next)
  | .wide data isLast slots => .wide data isLast (slots.map inSlot)

/-- A stored node with stubs behind its links. That is enough for what looks at the node alone. -/
def glimpse? (s : Store α) (id : NodeId) : Option (Node α) :=
  (s.get? id).map (s.treeOver s.stubAt)

/-! ## Trees of slots -/

/-- The trees of the first nodes of the store. Slots lead to nodes that were built earlier, so one
pass in the order of building is enough. -/
def slotTrees (s : Store α) (count : Nat) : Array (Node α) :=
  (s.entries.extract 0 count).foldl
    (fun trees entry => trees.push (s.treeOver (fun slot => slot.bind (trees[·.index]?)) entry)) #[]

/-! ## Trees of chains -/

/-- How far the reading of a node has come. -/
inductive Reading (α : Type) where
  /-- What is behind the node's links has been begun this many times, and never been finished. -/
  | begun (times : Nat)
  /-- The tree of the node, with the siblings after it. -/
  | finished (tree : Node α)

/-- The readings of all nodes, by the index of the node. -/
abbrev Readings (α : Type) := Array (Reading α)

/-- How often a node is begun that is met again behind its own links. A walk that enters such a
circle can end by an error only. Its second round is at a greater depth than the first one, and its
third round shows it nothing that the second one did not, so three rounds show every error. -/
def rounds : Nat := 3

/-- A linked node that was met on the way along a chain, with the tree of its first child. -/
structure Passed (α : Type) where
  id : NodeId
  data : α
  firstChild : Option (Node α)

/-- Follows siblings up to the end of the chain or to a node whose tree is finished, and reads the
tree of each first child by `below` on the way. Answers the nodes passed, the last one first, and
what stands behind them. A node of another shape ends the chain, and so does the limit. -/
def followChain (s : Store α) (below : Option NodeId → StateM (Readings α) (Option (Node α))) :
    (limit : Nat) → (passed : List (Passed α)) → Option NodeId →
      StateM (Readings α) (List (Passed α) × Option (Node α))
  | _, passed, none => pure (passed, none)
  | 0, passed, some id => pure (passed, s.glimpse? id)
  | limit + 1, passed, some id => do
    match (← get)[id.index]?, s.get? id with
    | some (.finished tree), _ => pure (passed, some tree)
    | some (.begun times), some ⟨.linked data first, sibling⟩ =>
      if times < rounds then
        modify fun readings => readings.setIfInBounds id.index (.begun (times + 1))
        let firstTree ← below first
        s.followChain below limit (⟨id, data, firstTree⟩ :: passed) sibling.next
      else
        pure (passed, s.glimpse? id)
    | _, _ => pure (passed, s.glimpse? id)

/-- Finishes the nodes passed, from the last one backwards, and answers the tree of the first. -/
def finishChain : (passed : List (Passed α)) → (behind : Option (Node α)) →
    StateM (Readings α) (Option (Node α))
  | [], behind => pure behind
  | node :: before, behind => do
    let tree := Node.linked node.data node.firstChild behind
    modify fun readings => readings.setIfInBounds node.id.index (.finished tree)
    finishChain before (some tree)

/-- The tree of a node and of the siblings after it, down to `depth` levels. -/
def chainTree (s : Store α) (limit : Nat) :
    (depth : Nat) → Option NodeId → StateM (Readings α) (Option (Node α))
  | 0, start => pure (start.bind s.glimpse?)
  | depth + 1, start => do
    let (passed, behind) ← s.followChain (s.chainTree limit depth) limit [] start
    finishChain passed behind

/-- The tree of the first child of a linked node and of the siblings after that. No node is begun
more than `rounds` times, which bounds all levels and chains. -/
def childTree (s : Store α) (firstChild : Option NodeId) : Option (Node α) :=
  let limit := rounds * s.entries.size
  ((s.chainTree limit limit firstChild).run (Array.replicate s.entries.size (.begun 0))).1

/-! ## The tree below a node -/

/-- The tree below a stored node. Walks that begin at a linked node leave its own siblings alone, so
these are stubs. -/
def node? (s : Store α) (id : NodeId) : Option (Node α) :=
  match s.get? id with
  | none => none
  | some ⟨.linked data first, sibling⟩ =>
    some (.linked data (s.childTree first) (s.stubAt sibling.next))
  | some _ => (s.slotTrees (id.index + 1))[id.index]?

end Store

end TreeTraversal
