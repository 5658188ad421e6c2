import Mathlib.Data.List.Perm.Basic
import TreeTraversal.Proofs.Walk.Script
import TreeTraversal.Visitor.Collecting

/-!
# The nodes that walks visit

Pre-order, post-order and breadth-first visit, in different orders, the nodes that slots lead to.
Iterative pre-order and in-order visit all of a binary tree, sibling pre-order all of a linked one, and
each of these three has a fault at a root of another shape.
-/

namespace TreeTraversal

namespace Script

variable {α : Type}

/-- The nodes that are visited. -/
def visited (script : Script α) : List (Node α) :=
  script.calls.filterMap Event.subject?

/-- Whether a script has no fault and visits these nodes, each of them once. -/
def Covers (script : Script α) (nodes : List (Node α)) : Prop :=
  script.fault = none ∧ script.visited.Perm nodes

theorem Covers.perm {script : Script α} {xs ys : List (Node α)} (h : script.Covers xs)
    (hperm : xs.Perm ys) : script.Covers ys :=
  ⟨h.1, h.2.trans hperm⟩

theorem visited_andThen {a b : Script α} (h : a.fault = none) :
    (a.andThen b).visited = a.visited ++ b.visited := by
  rw [andThen_of_none h]
  exact List.filterMap_append

-- What comes after a script without a fault is reached.
theorem Covers.andThen {a b : Script α} {xs ys : List (Node α)} (ha : a.Covers xs)
    (hb : b.Covers ys) : (a.andThen b).Covers (xs ++ ys) := by
  constructor
  · rw [andThen_of_none ha.1]
    exact hb.1
  · rw [visited_andThen ha.1]
    exact ha.2.append hb.2

theorem covers_sequence {β : Type} (script : β → Script α) (nodes : β → List (Node α))
    (items : List β) (h : ∀ b ∈ items, (script b).Covers (nodes b)) :
    (sequence (items.map script)).Covers (items.flatMap nodes) := by
  induction items with
  | nil => exact ⟨rfl, .refl _⟩
  | cons b rest ih =>
    have hfirst := h b List.mem_cons_self
    have hrest := ih fun c hc => h c (List.mem_cons_of_mem b hc)
    rw [List.map_cons, sequence_cons, List.flatMap_cons]
    exact hfirst.andThen hrest

/-- Whether a script ends by a fault or visits too few nodes for these. -/
def FallsShort (script : Script α) (nodes : List (Node α)) : Prop :=
  script.fault ≠ none ∨ script.visited.length < nodes.length

theorem Covers.not_fallsShort {script : Script α} {nodes : List (Node α)} (h : script.Covers nodes) :
    ¬ script.FallsShort nodes := by
  intro hshort
  have hlength := h.2.length_eq
  rcases hshort with hfault | hfew
  · exact hfault h.1
  · omega

end Script

namespace Node

variable {α : Type}

/-! ## 1. Walks through slots -/

theorem visited_preOrderCalls (n : Node α) :
    (⟨n.preOrderCalls, none⟩ : Script α).visited = n.slotNodes := by
  induction n using induction_offspring with
  | step n ih =>
    have hbelow : n.children.flatMap (fun c => c.preOrderCalls.filterMap Event.subject?)
        = n.children.flatMap slotNodes :=
      List.flatMap_congr fun c hc => ih c (mem_offspring_of_mem_children hc)
    rw [Script.visited, preOrderCalls_eq, slotNodes_eq, ← hbelow]
    simp [Event.subject?, List.filterMap_cons, List.filterMap_append, List.filterMap_flatMap]

theorem visited_postOrderCalls_perm (n : Node α) :
    (⟨n.postOrderCalls, none⟩ : Script α).visited.Perm n.slotNodes := by
  induction n using induction_offspring with
  | step n ih =>
    have hbelow : (n.children.flatMap fun c => c.postOrderCalls.filterMap Event.subject?).Perm
        (n.children.flatMap slotNodes) :=
      List.Perm.flatMap_left _ fun c hc => ih c (mem_offspring_of_mem_children hc)
    have hvisited : (⟨n.postOrderCalls, none⟩ : Script α).visited
        = (n.children.flatMap fun c => c.postOrderCalls.filterMap Event.subject?) ++ [n] := by
      rw [Script.visited, postOrderCalls_eq]
      simp [Event.subject?, List.filterMap_cons, List.filterMap_append, List.filterMap_flatMap]
    rw [hvisited, slotNodes_eq]
    exact (List.perm_append_singleton n _).trans (hbelow.cons n)

-- What waits in the queue counts with all that it leads to, so the children that go to the end of the
-- queue are no more than what was expected of their parent.
theorem levelOrder_perm (queue : List (Node α)) :
    (levelOrder queue).Perm (queue.flatMap slotNodes) := by
  induction queue using levelOrder.induct with
  | case1 =>
    rw [levelOrder]
    rfl
  | case2 n queue ih =>
    rw [levelOrder, List.flatMap_cons, slotNodes_eq, List.cons_append]
    apply List.Perm.cons
    rw [List.flatMap_append] at ih
    exact ih.trans List.perm_append_comm

theorem visited_map_visit (nodes : List (Node α)) :
    (⟨nodes.map .visit, none⟩ : Script α).visited = nodes := by
  induction nodes with
  | nil => rfl
  | cons n rest ih => exact congrArg (n :: ·) ih

/-! ## 2. Walks that need one shape -/

theorem stackScript_covers {n : Node α} (h : n.Uniform .binary) : n.stackScript.Covers n.nodes := by
  induction n using induction_offspring with
  | step n ih =>
    rcases uniform_iff.mp h with ⟨hshape, hbelow⟩
    have hsame : n.children = n.offspring := (offspring_eq_children (by simp [hshape])).symm
    have hroot : (⟨[.visit n], none⟩ : Script α).Covers [n] := ⟨rfl, .refl _⟩
    have hoffspring := Script.covers_sequence stackScript nodes n.offspring
      fun c hc => ih c hc (hbelow c hc)
    rw [stackScript_of_binary hshape, hsame, nodes_eq]
    exact hroot.andThen hoffspring

theorem siblingScript_covers {n : Node α} (h : n.Uniform .linked) :
    n.siblingScript.Covers n.nodes := by
  induction n using induction_offspring with
  | step n ih =>
    rcases uniform_iff.mp h with ⟨hshape, hbelow⟩
    have hroot : (⟨[.visit n, .enter], none⟩ : Script α).Covers [n] := ⟨rfl, .refl _⟩
    have hleave : (⟨[.leave], none⟩ : Script α).Covers [] := ⟨rfl, .refl _⟩
    have hoffspring := Script.covers_sequence siblingScript nodes n.offspring
      fun c hc => ih c hc (hbelow c hc)
    have hall := hroot.andThen (hoffspring.andThen hleave)
    rw [List.append_nil] at hall
    rw [siblingScript_of_linked hshape, Script.sequence_cons, Script.sequence_cons,
      Script.sequence_singleton, nodes_eq]
    exact hall

theorem inOrderSlotScript_eq (slot : Option (Node α)) :
    inOrderSlotScript slot = .sequence (slot.toList.map inOrderScript) := by
  cases slot with
  | none => rfl
  | some n => exact (Script.sequence_singleton n.inOrderScript).symm

theorem inOrderScript_covers {n : Node α} (h : n.Uniform .binary) :
    n.inOrderScript.Covers n.nodes := by
  induction n using induction_offspring with
  | step n ih =>
    rcases uniform_iff.mp h with ⟨hshape, hbelow⟩
    cases n with
    | linked d f s => cases hshape
    | wide d isLast slots => cases hshape
    | binary d l r =>
      have hoffspring : (binary d l r).offspring = l.toList ++ r.toList := by
        cases l <;> cases r <;> rfl
      rw [hoffspring] at ih hbelow
      -- both sides of the node, each as the list of what is in its slot
      have hside : ∀ slot : Option (Node α), (∀ c ∈ slot.toList, c ∈ l.toList ++ r.toList) →
          (inOrderSlotScript slot).Covers (slot.toList.flatMap nodes) := by
        intro slot hslot
        rw [inOrderSlotScript_eq]
        apply Script.covers_sequence
        exact fun c hc => ih c (hslot c hc) (hbelow c (hslot c hc))
      have hleft := hside l fun c hc => List.mem_append_left _ hc
      have hright := hside r fun c hc => List.mem_append_right _ hc
      have henter : (⟨[.enter], none⟩ : Script α).Covers [] := ⟨rfl, .refl _⟩
      have hroot : (⟨[.leave, .visit (binary d l r), .enter], none⟩ : Script α).Covers
          [binary d l r] := ⟨rfl, .refl _⟩
      have hleave : (⟨[.leave], none⟩ : Script α).Covers [] := ⟨rfl, .refl _⟩
      have hall := henter.andThen (hleft.andThen (hroot.andThen (hright.andThen hleave)))
      rw [List.append_nil, List.nil_append] at hall
      rw [inOrderScript, Script.sequence_cons, Script.sequence_cons, Script.sequence_cons,
        Script.sequence_cons, Script.sequence_singleton, nodes_eq, hoffspring, List.flatMap_append]
      -- the node is visited between its sides and listed before them
      exact hall.perm List.perm_middle

/-! ## 3. Strategies -/

end Node

namespace Strategy

variable {α : Type} {s : Strategy}

theorem script_covers_slotNodes (hbinary : s.needsBinary = false) (hlinked : s.needsLinked = false)
    (root : Node α) : (s.script root).Covers root.slotNodes := by
  cases s with
  | breadthFirst =>
    have hperm := Node.levelOrder_perm [root]
    rw [List.flatMap_singleton] at hperm
    rw [script, Script.Covers, Node.visited_map_visit]
    exact ⟨rfl, hperm⟩
  | preOrder => exact ⟨rfl, .of_eq root.visited_preOrderCalls⟩
  | postOrder => exact ⟨rfl, root.visited_postOrderCalls_perm⟩
  | iterativePreOrder => cases hbinary
  | inOrder => cases hbinary
  | siblingPreOrder => cases hlinked

theorem script_covers_of_binary (h : s.needsBinary = true) {root : Node α}
    (huniform : root.Uniform .binary) : (s.script root).Covers root.nodes := by
  cases s with
  | iterativePreOrder => exact Node.stackScript_covers huniform
  | inOrder => exact Node.inOrderScript_covers huniform
  | breadthFirst => cases h
  | preOrder => cases h
  | postOrder => cases h
  | siblingPreOrder => cases h

-- Both walks ask the root for a link that it has not.
theorem script_fallsShort_of_not_binary (h : s.needsBinary = true) {root : Node α}
    (hshape : root.shape ≠ .binary) : (s.script root).FallsShort root.nodes := by
  left
  cases s with
  | iterativePreOrder => simp [script, Node.stackScript_of_not_binary hshape]
  | inOrder =>
    cases root with
    | binary d l r => exact absurd rfl hshape
    | linked d f s => simp [script, Node.inOrderScript]
    | wide d isLast slots => simp [script, Node.inOrderScript]
  | breadthFirst => cases h
  | preOrder => cases h
  | postOrder => cases h
  | siblingPreOrder => cases h

theorem script_covers_of_linked (h : s.needsLinked = true) {root : Node α}
    (huniform : root.Uniform .linked) : (s.script root).Covers root.nodes := by
  cases s <;> cases h
  exact Node.siblingScript_covers huniform

theorem script_fallsShort_of_not_linked (h : s.needsLinked = true) {root : Node α}
    (hshape : root.shape ≠ .linked) : (s.script root).FallsShort root.nodes := by
  cases s <;> cases h
  left
  simp [script, Node.siblingScript_of_not_linked hshape]

theorem script_covers_of_slots (hbinary : s.needsBinary = false) (hlinked : s.needsLinked = false)
    {shape : Shape} {root : Node α} (huniform : root.Uniform shape)
    (hroot : root.shape = .linked → root.isLeaf = true) : (s.script root).Covers root.nodes := by
  have hcovers := script_covers_slotNodes hbinary hlinked root
  have hnodes : root.slotNodes = root.nodes := by
    by_cases hshape : root.shape = .linked
    · -- a linked root without children is the whole tree
      have hlength := (Node.isLeaf_iff_of_linked hshape).mp (hroot hshape)
      rcases List.length_eq_one_iff.mp hlength with ⟨n, hn⟩
      have hself := root.self_mem_nodes
      rw [hn, List.mem_singleton] at hself
      rw [Node.slotNodes_of_linked hshape, hn, hself]
    · apply Node.slotNodes_eq_nodes
      intro m hm
      rw [huniform m hm, ← (Node.uniform_iff.mp huniform).1]
      exact hshape
  rwa [hnodes] at hcovers

theorem script_fallsShort_of_slots (hbinary : s.needsBinary = false)
    (hlinked : s.needsLinked = false) {root : Node α} (hshape : root.shape = .linked)
    (hleaf : root.isLeaf ≠ true) : (s.script root).FallsShort root.nodes := by
  have hcovers := script_covers_slotNodes hbinary hlinked root
  have hvisited : (s.script root).visited.length = 1 := by
    rw [hcovers.2.length_eq, Node.slotNodes_of_linked hshape, List.length_singleton]
  have hpos : 0 < root.nodes.length := List.length_pos_of_mem root.self_mem_nodes
  have hmore : root.nodes.length ≠ 1 := fun h => hleaf ((Node.isLeaf_iff_of_linked hshape).mpr h)
  right
  omega

end Strategy

end TreeTraversal
