import TreeTraversal.Node.View

/-!
# Blueprints

A blueprint says how to build a node: what its parts are, down to holes and to nodes that are in the
store already. Parts are built before the whole, and from left to right.
-/

namespace TreeTraversal

inductive Blueprint (α : Type) where
  | hole
  | existing (id : NodeId)
  | binary (data : α) (left right : Blueprint α)
  | linked (data : α) (children : List (Blueprint α))
  | wide (data : α) (isLast : Bool) (slots : List (Blueprint α))
  deriving Inhabited

namespace Blueprint

variable {α ε : Type}

def leaf (data : α) : Blueprint α :=
  .binary data .hole .hole

variable [IncludesErrors ε]

mutual

def build : Blueprint α → EStateM ε (Store α) (Option NodeId)
  | .hole => pure none
  | .existing id => pure (some id)
  | .binary data l r => do
    let left ← build l
    let right ← build r
    some <$> Store.addBinary data left right
  | .linked data children => do
    let ids ← buildAll [] children
    some <$> Store.addLinked data ids
  | .wide data isLast slots => do
    let ids ← buildAll [] slots
    some <$> Store.addWide data isLast ids

/-- Builds what some blueprints describe, one after the other. Of the nodes built before them the last
one comes first. -/
def buildAll (built : List (Option NodeId)) :
    List (Blueprint α) → EStateM ε (Store α) (List (Option NodeId))
  | [] => pure built.reverse
  | b :: rest => do
    let id ← build b
    buildAll (id :: built) rest

end

/-- The tree that a blueprint describes by itself, as far as walks can reach. There is none for a hole
or for a blueprint that cannot be built. -/
def tree? (b : Blueprint α) : Option (Node α) :=
  match (build b : EStateM Error (Store α) (Option NodeId)) {} with
  | .ok (some id) s => s.node? id
  | .ok none _ => none
  | .error _ _ => none

end Blueprint

end TreeTraversal
