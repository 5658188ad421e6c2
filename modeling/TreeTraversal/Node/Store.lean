import TreeTraversal.Node.Basic

/-!
# Stores of nodes

A store holds nodes that have been built, each under an identity of its own. Nodes refer to their
children by identity, so a node may be shared, and may be given to a second parent. Nothing about a
stored node ever changes but the link to the sibling after it: a linked parent chains the children it
is given, and a child that was chained before is rewired for all who reach it.
-/

namespace TreeTraversal

structure NodeId where
  index : Nat
  deriving DecidableEq, Repr

/-- What a node is built from, with its children by identity. -/
inductive Cell (α : Type) where
  | binary (data : α) (left right : Option NodeId)
  | linked (data : α) (firstChild : Option NodeId)
  | wide (data : α) (isLast : Bool) (slots : List (Option NodeId))

def Cell.shape {α : Type} : Cell α → Shape
  | binary .. => .binary
  | linked .. => .linked
  | wide .. => .wide

def Cell.data {α : Type} : Cell α → α
  | binary d _ _ => d
  | linked d _ => d
  | wide d _ _ => d

/-- The link from a node to the sibling after it. Linked nodes have it from the start; nodes of other
shapes have it only once they were chained. -/
inductive SiblingLink where
  | unset
  | set (next : Option NodeId)
  deriving DecidableEq, Repr

def SiblingLink.next : SiblingLink → Option NodeId
  | unset => none
  | set next => next

structure Entry (α : Type) where
  cell : Cell α
  sibling : SiblingLink

/-- The nodes built so far, in the order in which they were built. -/
structure Store (α : Type) where
  entries : Array (Entry α) := #[]

namespace Store

variable {α ε : Type}

def get? (s : Store α) (id : NodeId) : Option (Entry α) :=
  s.entries[id.index]?

def add (entry : Entry α) : EStateM ε (Store α) NodeId :=
  modifyGet fun s => (⟨s.entries.size⟩, ⟨s.entries.push entry⟩)

def link (s : Store α) (id : NodeId) (next : Option NodeId) : Store α :=
  ⟨s.entries.modify id.index fun entry => { entry with sibling := .set next }⟩

/-- Chains some children: each gets the one after it as its sibling, and the last one keeps the link
it has. A hole that others follow cannot be linked; the links made before it stay. -/
def chain [IncludesErrors ε] : List (Option NodeId) → EStateM ε (Store α) Unit
  | previous :: next :: rest =>
    match previous with
    | none => Error.raise .holeInChain
    | some id => do
      modify fun s => s.link id next
      chain (next :: rest)
  | _ => pure ()

def addBinary (data : α) (left right : Option NodeId) : EStateM ε (Store α) NodeId :=
  add ⟨.binary data left right, .unset⟩

def addWide (data : α) (isLast : Bool) (slots : List (Option NodeId)) :
    EStateM ε (Store α) NodeId :=
  add ⟨.wide data isLast slots, .unset⟩

/-- Builds a linked node, and chains its children. The node itself has no sibling yet. -/
def addLinked [IncludesErrors ε] (data : α) (children : List (Option NodeId)) :
    EStateM ε (Store α) NodeId := do
  chain children
  add ⟨.linked data (children.head?.getD none), .set none⟩

end Store

end TreeTraversal
