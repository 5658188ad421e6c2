import Mathlib.Data.List.Basic
import TreeTraversal.Node.Basic

/-!
# What is below a node

`Node.children` lists what is in the slots of a node, and takes a linked node for a leaf.
`Node.offspring` follows whatever links the shape of the node has, so that everything in a tree is
found below its root. A tree is uniform when all its nodes have one shape.
-/

namespace TreeTraversal.Node

variable {α : Type}

/-! ## Offspring -/

/-- The nodes of a chain of siblings, from its first node on. Only linked nodes lead on. -/
def chain : Option (Node α) → List (Node α)
  | none => []
  | some (linked d f s) => linked d f s :: chain s
  | some (binary d l r) => [binary d l r]
  | some (wide d isLast slots) => [wide d isLast slots]

/-- The nodes that the links of a node lead to, in order. -/
def offspring : Node α → List (Node α)
  | binary d l r => children (binary d l r)
  | linked _ f _ => chain f
  | wide d isLast slots => children (wide d isLast slots)

theorem sizeOf_lt_of_mem_chain {m : Node α} {start : Option (Node α)} (h : m ∈ chain start) :
    sizeOf m < sizeOf start := by
  induction start using chain.induct with
  | case1 => simp [chain] at h
  | case2 d f s ih =>
    rw [chain, List.mem_cons] at h
    rcases h with rfl | h
    · simp only [Option.some.sizeOf_spec]
      omega
    · have hs := ih h
      simp only [Option.some.sizeOf_spec, linked.sizeOf_spec]
      omega
  | case3 d l r =>
    rw [chain, List.mem_singleton] at h
    simp only [h, Option.some.sizeOf_spec]
    omega
  | case4 d isLast slots =>
    rw [chain, List.mem_singleton] at h
    simp only [h, Option.some.sizeOf_spec]
    omega

theorem sizeOf_lt_of_mem_children {m n : Node α} (h : m ∈ n.children) : sizeOf m < sizeOf n := by
  unfold children at h
  rw [List.mem_filterMap] at h
  rcases h with ⟨slot, hslot, rfl⟩
  cases n with
  | binary d l r =>
    simp only [slots, List.mem_cons, List.not_mem_nil, or_false] at hslot
    rcases hslot with rfl | rfl <;> simp <;> omega
  | linked d f s => simp [slots] at hslot
  | wide d isLast ws =>
    -- the slot itself is smaller than the list that it is in
    have hlt : sizeOf (some m) < sizeOf ws := List.sizeOf_lt_of_mem hslot
    simp only [Option.some.sizeOf_spec] at hlt
    simp only [wide.sizeOf_spec]
    omega

theorem sizeOf_lt_of_mem_offspring {m n : Node α} (h : m ∈ n.offspring) : sizeOf m < sizeOf n := by
  cases n with
  | binary d l r => exact sizeOf_lt_of_mem_children h
  | linked d f s =>
    have hlt := sizeOf_lt_of_mem_chain h
    simp only [linked.sizeOf_spec]
    omega
  | wide d isLast slots => exact sizeOf_lt_of_mem_children h

-- Nothing but a linked node has offspring outside its slots.
theorem offspring_eq_children {n : Node α} (h : n.shape ≠ .linked) : n.offspring = n.children := by
  cases n with
  | binary d l r => rfl
  | linked d f s => exact absurd rfl h
  | wide d isLast slots => rfl

/-- What holds of a node as soon as it holds of its offspring holds of every node. -/
theorem induction_offspring {P : Node α → Prop} (step : ∀ n, (∀ m ∈ n.offspring, P m) → P n)
    (n : Node α) : P n :=
  step n fun m _ => induction_offspring step m
termination_by sizeOf n
decreasing_by exact sizeOf_lt_of_mem_offspring ‹_›

/-! ## All nodes of a tree -/

/-- A node and all nodes below it, each before its offspring. -/
def nodes (n : Node α) : List (Node α) :=
  n :: n.offspring.attach.flatMap fun ⟨m, _⟩ => nodes m
termination_by sizeOf n
decreasing_by exact sizeOf_lt_of_mem_offspring ‹_›

theorem nodes_eq (n : Node α) : n.nodes = n :: n.offspring.flatMap nodes := by
  rw [nodes]
  simp

theorem self_mem_nodes (n : Node α) : n ∈ n.nodes := by
  rw [nodes_eq]
  exact List.mem_cons_self

theorem mem_nodes_of_mem_offspring {k m n : Node α} (hm : m ∈ n.offspring) (hk : k ∈ m.nodes) :
    k ∈ n.nodes := by
  rw [nodes_eq]
  exact List.mem_cons_of_mem n (List.mem_flatMap.mpr ⟨m, hm, hk⟩)

/-- Whether all nodes of a tree have this shape. -/
def Uniform (shape : Shape) (root : Node α) : Prop :=
  ∀ n ∈ root.nodes, n.shape = shape

theorem uniform_iff {shape : Shape} {root : Node α} :
    root.Uniform shape ↔ root.shape = shape ∧ ∀ m ∈ root.offspring, m.Uniform shape := by
  simp only [Uniform, nodes_eq root, List.mem_cons, List.mem_flatMap, forall_eq_or_imp]
  constructor
  · intro h
    exact ⟨h.1, fun m hm n hn => h.2 n ⟨m, hm, hn⟩⟩
  · intro h
    refine ⟨h.1, ?_⟩
    intro n hn
    rcases hn with ⟨m, hm, hn⟩
    exact h.2 m hm n hn

/-- All nodes of a tree that may be empty. -/
def nodesOf : Option (Node α) → List (Node α)
  | none => []
  | some root => root.nodes

/-! ## The nodes that are reached through slots -/

/-- A node and all nodes that are reached from it through slots, each before its children. -/
def slotNodes (n : Node α) : List (Node α) :=
  n :: n.children.attach.flatMap fun ⟨c, _⟩ => slotNodes c
termination_by sizeOf n
decreasing_by exact sizeOf_lt_of_mem_children ‹_›

theorem slotNodes_eq (n : Node α) : n.slotNodes = n :: n.children.flatMap slotNodes := by
  rw [slotNodes]
  simp

/-- Where no node is linked, slots lead everywhere. -/
theorem slotNodes_eq_nodes {n : Node α} (h : ∀ m ∈ n.nodes, m.shape ≠ .linked) :
    n.slotNodes = n.nodes := by
  induction n using induction_offspring with
  | step n ih =>
    have hbelow : n.offspring.flatMap slotNodes = n.offspring.flatMap nodes :=
      List.flatMap_congr fun m hm =>
        ih m hm fun k hk => h k (mem_nodes_of_mem_offspring hm hk)
    rw [slotNodes_eq, nodes_eq, ← hbelow, offspring_eq_children (h n n.self_mem_nodes)]

-- A linked node shows nothing through its slots.
theorem slotNodes_of_linked {n : Node α} (h : n.shape = .linked) : n.slotNodes = [n] := by
  cases n with
  | binary d l r => cases h
  | linked d f s =>
    rw [slotNodes_eq]
    simp [children, slots]
  | wide d isLast slots => cases h

theorem isLeaf_iff_of_linked {n : Node α} (h : n.shape = .linked) :
    n.isLeaf = true ↔ n.nodes.length = 1 := by
  cases n with
  | binary d l r => cases h
  | wide d isLast slots => cases h
  | linked d f s =>
    rw [nodes_eq, offspring]
    -- a first child of any shape is one node more
    rcases f with _ | (⟨d₁, l, r⟩ | ⟨d₁, f₁, s₁⟩ | ⟨d₁, isLast, slots⟩)
    · simp [isLeaf, chain]
    all_goals
      rw [chain, List.flatMap_cons, nodes_eq]
      simp [isLeaf]

/-! ## A sample -/

/-- The linked tree `r(a(b), c)`. -/
def outline : Node Value :=
  let b := linked (.str "b") none none
  let c := linked (.str "c") none none
  let a := linked (.str "a") (some b) (some c)
  linked (.str "r") (some a) none

theorem uniform_outline : outline.Uniform .linked := by
  simp [outline, Uniform, nodes_eq, offspring, chain, shape]

end TreeTraversal.Node
