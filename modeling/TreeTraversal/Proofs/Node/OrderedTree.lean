import TreeTraversal.Visitor.Basic

/-!
# Ordered trees

An ordered tree is data with any number of trees below it. That is what a tree of nodes comes down to
once it is forgotten how its nodes keep their children.
-/

namespace TreeTraversal

inductive OrderedTree (α : Type) where
  | node (data : α) (below : List (OrderedTree α))

namespace OrderedTree

variable {α : Type}

theorem sizeOf_lt_of_mem_below {t : OrderedTree α} {data : α} {below : List (OrderedTree α)}
    (h : t ∈ below) : sizeOf t < sizeOf (node data below) := by
  have hlt := List.sizeOf_lt_of_mem h
  simp only [node.sizeOf_spec]
  omega

/-- What holds of a tree as soon as it holds of the trees below its root holds of every tree. -/
theorem induction_below {P : OrderedTree α → Prop}
    (step : ∀ data below, (∀ t ∈ below, P t) → P (node data below)) : ∀ t, P t
  | node data below => step data below fun t _ => induction_below step t
termination_by t => sizeOf t
decreasing_by exact sizeOf_lt_of_mem_below ‹_›

/-! ## Hooks -/

/-- The hooks for a tree where the root comes before a level with what is below it. -/
def preOrderHooks : OrderedTree α → List (Event α)
  | node data below =>
    .visit data :: .enter :: (below.attach.flatMap fun ⟨t, _⟩ => preOrderHooks t) ++ [.leave]
termination_by t => sizeOf t
decreasing_by exact sizeOf_lt_of_mem_below ‹_›

theorem preOrderHooks_node (data : α) (below : List (OrderedTree α)) :
    (node data below).preOrderHooks
      = .visit data :: .enter :: below.flatMap preOrderHooks ++ [.leave] := by
  rw [preOrderHooks]
  simp

/-- The hooks for a tree where the root comes after a level with what is below it. -/
def postOrderHooks : OrderedTree α → List (Event α)
  | node data below =>
    .enter :: (below.attach.flatMap fun ⟨t, _⟩ => postOrderHooks t) ++ [.leave, .visit data]
termination_by t => sizeOf t
decreasing_by exact sizeOf_lt_of_mem_below ‹_›

theorem postOrderHooks_node (data : α) (below : List (OrderedTree α)) :
    (node data below).postOrderHooks
      = .enter :: below.flatMap postOrderHooks ++ [.leave, .visit data] := by
  rw [postOrderHooks]
  simp

end OrderedTree

end TreeTraversal
