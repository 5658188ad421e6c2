import TreeTraversal.Error

/-!
# Nodes

A node carries data and knows its children in the way of its shape. Slots may be empty; such holes
keep their places in the list of slots and are skipped in the list of children. A linked node shows
no slots: its children are reached by the first-child link and then from sibling to sibling.
-/

namespace TreeTraversal

/-- A node with everything that can be reached from it. -/
inductive Node (α : Type) where
  /-- A node with a left and a right slot. -/
  | binary (data : α) (left right : Option (Node α))
  /-- A node with links to its first child and to the sibling after it. -/
  | linked (data : α) (firstChild nextSibling : Option (Node α))
  /-- A node with any number of slots, which is told whether it is the last child. -/
  | wide (data : α) (isLast : Bool) (slots : List (Option (Node α)))

namespace Node

variable {α : Type}

def data : Node α → α
  | binary d _ _ => d
  | linked d _ _ => d
  | wide d _ _ => d

def shape : Node α → Shape
  | binary .. => .binary
  | linked .. => .linked
  | wide .. => .wide

/-- The slots of the node in order, holes included. -/
def slots : Node α → List (Option (Node α))
  | binary _ l r => [l, r]
  | linked .. => []
  | wide _ _ slots => slots

def children (n : Node α) : List (Node α) :=
  n.slots.filterMap id

def isLeaf : Node α → Bool
  | binary _ l r => l.isNone && r.isNone
  | linked _ f _ => f.isNone
  | wide _ _ slots => slots.all Option.isNone

/-- Whether no sibling follows the node. A binary node cannot tell. -/
def isLastChild : Node α → Except Error Bool
  | binary .. => .error (.noSiblingOrder .binary)
  | linked _ _ s => .ok s.isNone
  | wide _ isLast _ => .ok isLast

def text (n : Node Value) : String :=
  n.data.text

def literal (n : Node Value) : String :=
  n.shape.name ++ "(" ++ n.data.literal ++ ")"

/-! ## Size -/

mutual

/-- The number of nodes that are reached through slots. -/
def size : Node α → Nat
  | binary _ l r => 1 + sizeSlot l + sizeSlot r
  | linked .. => 1
  | wide _ _ slots => 1 + sizeSlots slots

def sizeSlot : Option (Node α) → Nat
  | none => 0
  | some n => size n

def sizeSlots : List (Option (Node α)) → Nat
  | [] => 0
  | slot :: rest => sizeSlot slot + sizeSlots rest

end

def sizeAll : List (Node α) → Nat
  | [] => 0
  | n :: rest => size n + sizeAll rest

theorem sizeAll_append (xs ys : List (Node α)) : sizeAll (xs ++ ys) = sizeAll xs + sizeAll ys := by
  induction xs with
  | nil => simp [sizeAll]
  | cons n rest ih => simp [sizeAll, ih, Nat.add_assoc]

theorem sizeAll_reverse (xs : List (Node α)) : sizeAll xs.reverse = sizeAll xs := by
  induction xs with
  | nil => rfl
  | cons n rest ih =>
    rw [List.reverse_cons, sizeAll_append, ih]
    simp [sizeAll, Nat.add_comm]

theorem sizeSlots_eq_sizeAll (slots : List (Option (Node α))) :
    sizeSlots slots = sizeAll (slots.filterMap id) := by
  induction slots with
  | nil => rfl
  | cons slot rest ih => cases slot <;> simp [sizeSlots, sizeSlot, sizeAll, ih]

/-- A node counts itself and what its children count. -/
theorem size_eq_children (n : Node α) : n.size = 1 + sizeAll n.children := by
  cases n with
  | binary d l r =>
    cases l <;> cases r <;> simp [size, children, slots, sizeSlot, sizeAll, Nat.add_assoc]
  | linked d f s => simp [size, children, slots, sizeAll]
  | wide d i s => simp [size, children, slots, sizeSlots_eq_sizeAll]

end Node

end TreeTraversal
