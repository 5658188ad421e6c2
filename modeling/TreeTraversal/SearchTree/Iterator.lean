import TreeTraversal.SearchTree.Basic

/-!
# Iterators over a growing search tree

An iterator lists the keys of a tree in ascending order, one each time it is asked, while the tree may
grow between two requests. It remembers places in the tree by the turns that lead to them from the
root: trees grow at their ends only, so a place keeps its meaning. It looks at no place before it has
to, and once it has come to the end it stays there.
-/

namespace TreeTraversal

inductive Turn where
  | left
  | right
  deriving DecidableEq, Repr

/-- A place in a tree: the turns that lead there from the root, the last one first. -/
abbrev Place := List Turn

namespace KeyTree

variable {κ : Type}

def turn (t : KeyTree κ) : Turn → KeyTree κ
  | .left =>
    match t with
    | empty => empty
    | fork l _ _ => l
  | .right =>
    match t with
    | empty => empty
    | fork _ _ r => r

def subtree (t : KeyTree κ) : Place → KeyTree κ
  | [] => t
  | last :: way => (t.subtree way).turn last

end KeyTree

inductive Iterator where
  /-- Keys at `pending` are still to come, the innermost first, and before them all that is found
  below `cursor`. -/
  | running (pending : List Place) (cursor : Place)
  /-- At the end, for good. -/
  | ended
  deriving DecidableEq, Repr

namespace Iterator

variable {κ : Type}

def start : Iterator :=
  running [] []

/-- The places met on the way down the left side of a tree that is found at `place`, put before those
that are pending. -/
def descend (pending : List Place) (place : Place) : KeyTree κ → List Place
  | .empty => pending
  | .fork l _ _ => descend (place :: pending) (.left :: place) l

/-- The next key, with the iterator after it. -/
def next (t : SearchTree κ) : Iterator → Option κ × Iterator
  | ended => (none, ended)
  | running pending cursor =>
    match descend pending cursor (t.root.subtree cursor) with
    | [] => (none, ended)
    | place :: rest =>
      match t.root.subtree place with
      | .empty => (none, ended)
      | .fork _ key _ => (some key, running rest (.right :: place))

end Iterator

end TreeTraversal
