import Mathlib.Data.List.Pairwise
import TreeTraversal.Proofs.Walk.Stack

/-!
# Generations of a tree

Breadth-first visits one generation after another: the root, its children, their children, and so on.
While a generation is visited, the queue holds the rest of it and the children of those that were
visited, so that the next generation is complete just when it begins. The same list comes out when the
nodes in pre-order are sorted by depth and nodes of one depth keep their order.
-/

namespace TreeTraversal

/-! ## 1. Sorting by depth -/

section Sorting

variable {β : Type}

/-- The items of this depth, in their order. -/
def atDepth (depth : Nat) (items : List (Nat × β)) : List (Nat × β) :=
  items.filter fun a => a.1 = depth

variable {xs ys placed : List (Nat × β)} {a b : Nat × β} {depth : Nat}

theorem mem_atDepth : a ∈ atDepth depth xs ↔ a ∈ xs ∧ a.1 = depth := by
  simp [atDepth]

theorem atDepth_append (depth : Nat) (xs ys : List (Nat × β)) :
    atDepth depth (xs ++ ys) = atDepth depth xs ++ atDepth depth ys :=
  List.filter_append xs ys

theorem atDepth_cons_self (h : a.1 = depth) (xs : List (Nat × β)) :
    atDepth depth (a :: xs) = a :: atDepth depth xs :=
  List.filter_cons_of_pos (decide_eq_true h)

theorem atDepth_cons_other (h : a.1 ≠ depth) (xs : List (Nat × β)) :
    atDepth depth (a :: xs) = atDepth depth xs :=
  List.filter_cons_of_neg (by simpa using h)

theorem atDepth_eq_self (h : ∀ a ∈ xs, a.1 = depth) : atDepth depth xs = xs :=
  List.filter_eq_self.mpr fun a ha => decide_eq_true (h a ha)

theorem atDepth_eq_nil (h : ∀ a ∈ xs, a.1 ≠ depth) : atDepth depth xs = [] :=
  List.filter_eq_nil_iff.mpr fun a ha => by simpa using h a ha

/-- A list has ascending depths, and at each depth just what another list has there, in that order. -/
structure SortedByDepth (sorted placed : List (Nat × β)) : Prop where
  ascending : sorted.Pairwise fun a b => a.1 ≤ b.1
  same : ∀ depth, atDepth depth sorted = atDepth depth placed

theorem SortedByDepth.mem_iff (h : SortedByDepth xs placed) (a : Nat × β) : a ∈ xs ↔ a ∈ placed := by
  have hdepth : ∀ zs : List (Nat × β), a ∈ atDepth a.1 zs ↔ a ∈ zs := by
    simp [mem_atDepth]
  rw [← hdepth xs, ← hdepth placed, h.same]

theorem SortedByDepth.head_le (h : SortedByDepth (a :: xs) placed) (hb : b ∈ placed) :
    a.1 ≤ b.1 := by
  rcases List.mem_cons.mp ((h.mem_iff b).mpr hb) with rfl | hb
  · exact Nat.le_refl _
  · exact List.rel_of_pairwise_cons h.ascending hb

-- Both have the items of the least depth in front, and among these the one that comes first in the list
-- that is sorted.
theorem SortedByDepth.head_eq (hx : SortedByDepth (a :: xs) placed)
    (hy : SortedByDepth (b :: ys) placed) : a = b := by
  have hab : a.1 ≤ b.1 := hx.head_le ((hy.mem_iff b).mp List.mem_cons_self)
  have hba : b.1 ≤ a.1 := hy.head_le ((hx.mem_iff a).mp List.mem_cons_self)
  have hsame := (hx.same a.1).trans (hy.same a.1).symm
  rw [atDepth_cons_self rfl, atDepth_cons_self (Nat.le_antisymm hba hab)] at hsame
  exact (List.cons.inj hsame).1

theorem SortedByDepth.tail (hx : SortedByDepth (a :: xs) placed)
    (hy : SortedByDepth (a :: ys) placed) : SortedByDepth xs ys := by
  refine ⟨hx.ascending.tail, fun depth => ?_⟩
  have hsame := (hx.same depth).trans (hy.same depth).symm
  by_cases ha : a.1 = depth
  · rw [atDepth_cons_self ha, atDepth_cons_self ha] at hsame
    exact (List.cons.inj hsame).2
  · rwa [atDepth_cons_other ha, atDepth_cons_other ha] at hsame

/-- There is only one way to sort a list by depth and keep the order of items of one depth. -/
theorem SortedByDepth.unique (hx : SortedByDepth xs placed) (hy : SortedByDepth ys placed) :
    xs = ys := by
  induction xs generalizing ys placed with
  | nil =>
    cases ys with
    | nil => rfl
    | cons b ys => cases (hx.mem_iff b).mpr ((hy.mem_iff b).mp List.mem_cons_self)
  | cons a xs ih =>
    cases ys with
    | nil => cases (hy.mem_iff a).mpr ((hx.mem_iff a).mp List.mem_cons_self)
    | cons b ys =>
      obtain rfl := hx.head_eq hy
      have hself : SortedByDepth ys ys := ⟨hy.ascending.tail, fun _ => rfl⟩
      rw [ih (hx.tail hy) hself]

/-- Whether the first of two items may stand before the second in a list that is sorted by depth. -/
def notDeeper (a b : Nat × β) : Bool :=
  a.1 ≤ b.1

theorem sortedByDepth_mergeSort (placed : List (Nat × β)) :
    SortedByDepth (placed.mergeSort notDeeper) placed := by
  have htrans : ∀ a b c : Nat × β, notDeeper a b → notDeeper b c → notDeeper a c := by
    simp only [notDeeper, decide_eq_true_eq]
    omega
  have htotal : ∀ a b : Nat × β, (notDeeper a b || notDeeper b a) = true := by
    simp only [notDeeper, Bool.or_eq_true, decide_eq_true_eq]
    omega
  refine ⟨(List.pairwise_mergeSort htrans htotal placed).imp of_decide_eq_true, fun depth => ?_⟩
  -- the items of one depth are sorted among themselves, so they are found in this order afterwards
  have hequal : (atDepth depth placed).Pairwise fun a b => notDeeper a b = true := by
    apply List.pairwise_of_forall_mem_list
    intro a ha b hb
    simp only [notDeeper, (mem_atDepth.mp ha).2, (mem_atDepth.mp hb).2, Nat.le_refl, decide_true]
  have hkept : (atDepth depth placed).Sublist (placed.mergeSort notDeeper) :=
    List.sublist_mergeSort htrans htotal hequal List.filter_sublist
  have hfound : (atDepth depth placed).Sublist (atDepth depth (placed.mergeSort notDeeper)) := by
    have hfilter := hkept.filter fun a => a.1 = depth
    rwa [List.filter_eq_self.mpr fun a ha => decide_eq_true (mem_atDepth.mp ha).2] at hfilter
  have hlength : (atDepth depth (placed.mergeSort notDeeper)).length = (atDepth depth placed).length :=
    ((List.mergeSort_perm placed notDeeper).filter _).length_eq
  exact (hfound.eq_of_length hlength.symm).symm

end Sorting

namespace Node

variable {α : Type}

/-! ## 2. Depths -/

/-- A node and all nodes that are reached from it through slots, each before its children, with the
number of slots that lead there from the root. -/
def depthListing (depth : Nat) (n : Node α) : List (Nat × Node α) :=
  (depth, n) :: n.children.attach.flatMap fun ⟨c, _⟩ => depthListing (depth + 1) c
termination_by sizeOf n
decreasing_by exact sizeOf_lt_of_mem_children ‹_›

theorem depthListing_eq (depth : Nat) (n : Node α) :
    n.depthListing depth = (depth, n) :: n.children.flatMap (depthListing (depth + 1)) := by
  rw [depthListing]
  simp

theorem depthListing_map_node (depth : Nat) (n : Node α) :
    (n.depthListing depth).map Prod.snd = n.slotNodes := by
  induction n using induction_offspring generalizing depth with
  | step n ih =>
    have hbelow : n.children.flatMap (fun c => (c.depthListing (depth + 1)).map Prod.snd)
        = n.children.flatMap slotNodes :=
      List.flatMap_congr fun c hc => ih c (mem_offspring_of_mem_children hc) (depth + 1)
    rw [depthListing_eq, List.map_cons, List.map_flatMap, hbelow, slotNodes_eq]

theorem le_of_mem_depthListing {depth : Nat} {n : Node α} {p : Nat × Node α}
    (h : p ∈ n.depthListing depth) : depth ≤ p.1 := by
  induction n using induction_offspring generalizing depth with
  | step n ih =>
    rw [depthListing_eq, List.mem_cons, List.mem_flatMap] at h
    rcases h with rfl | ⟨c, hc, hp⟩
    · exact Nat.le_refl depth
    · exact Nat.le_of_succ_le (ih c (mem_offspring_of_mem_children hc) hp)

theorem lt_of_mem_depthListings {depth : Nat} {nodes : List (Node α)} {p : Nat × Node α}
    (h : p ∈ nodes.flatMap (depthListing (depth + 1))) : depth < p.1 := by
  rcases List.mem_flatMap.mp h with ⟨c, -, hp⟩
  exact le_of_mem_depthListing hp

-- At the depth of some nodes there is nothing but these nodes.
theorem atDepth_depthListings_self (depth : Nat) (nodes : List (Node α)) :
    atDepth depth (nodes.flatMap (depthListing depth)) = nodes.map fun n => (depth, n) := by
  induction nodes with
  | nil => rfl
  | cons n rest ih =>
    have hbelow : atDepth depth (n.children.flatMap (depthListing (depth + 1))) = [] :=
      atDepth_eq_nil fun p hp => Nat.ne_of_gt (lt_of_mem_depthListings hp)
    rw [List.flatMap_cons, atDepth_append, ih, depthListing_eq,
      atDepth_cons_self (a := (depth, n)) rfl, hbelow]
    rfl

-- At any other depth there is what their children have there.
theorem atDepth_depthListings_other {depth k : Nat} (h : depth ≠ k) (nodes : List (Node α)) :
    atDepth k (nodes.flatMap (depthListing depth))
      = atDepth k ((nodes.flatMap children).flatMap (depthListing (depth + 1))) := by
  induction nodes with
  | nil => rfl
  | cons n rest ih =>
    rw [List.flatMap_cons, List.flatMap_cons, List.flatMap_append, atDepth_append, atDepth_append, ih,
      depthListing_eq, atDepth_cons_other h]

/-- The nodes that slots lead to from a root, if there is one, with their depths. -/
def depthListingOf : Option (Node α) → List (Nat × Node α)
  | none => []
  | some root => root.depthListing 0

/-! ## 3. One generation after another -/

theorem sizeAll_children_le (nodes : List (Node α)) :
    sizeAll (nodes.flatMap children) ≤ sizeAll nodes := by
  induction nodes with
  | nil => exact Nat.le_refl _
  | cons n rest ih =>
    rw [List.flatMap_cons, sizeAll_append, sizeAll, size_eq_children n]
    omega

/-- Some nodes of one depth, then all their children, then the children of these, and so on. -/
def generations (depth : Nat) : List (Node α) → List (Nat × Node α)
  | [] => []
  | n :: rest =>
    (n :: rest).map (fun m => (depth, m))
      ++ generations (depth + 1) ((n :: rest).flatMap children)
termination_by nodes => sizeAll nodes
decreasing_by
  have hrest := sizeAll_children_le rest
  rw [List.flatMap_cons, sizeAll_append, sizeAll, size_eq_children n]
  omega

-- The nodes in front leave the queue first, and then their children are behind all others.
theorem levelOrder_append (front back : List (Node α)) :
    levelOrder (front ++ back) = front ++ levelOrder (back ++ front.flatMap children) := by
  induction front generalizing back with
  | nil => rw [List.nil_append, List.flatMap_nil, List.append_nil, List.nil_append]
  | cons n rest ih =>
    rw [List.cons_append, levelOrder, List.append_assoc, ih, List.append_assoc, List.flatMap_cons]
    rfl

theorem levelOrder_eq_generations (depth : Nat) (nodes : List (Node α)) :
    levelOrder nodes = (generations depth nodes).map Prod.snd := by
  induction depth, nodes using generations.induct with
  | case1 depth => rw [levelOrder, generations, List.map_nil]
  | case2 depth n rest ih =>
    have hqueue := levelOrder_append (n :: rest) []
    rw [List.append_nil, List.nil_append] at hqueue
    rw [hqueue, ih, generations, List.map_append, List.map_map]
    simp [Function.comp_def]

-- A generation is all that there is at its depth, and everything after it is deeper.
theorem sortedByDepth_generations (depth : Nat) (nodes : List (Node α)) :
    SortedByDepth (generations depth nodes) (nodes.flatMap (depthListing depth)) := by
  induction depth, nodes using generations.induct with
  | case1 depth =>
    rw [generations]
    exact ⟨.nil, fun _ => rfl⟩
  | case2 depth n rest ih =>
    generalize hlater : generations (depth + 1) ((n :: rest).flatMap children) = later at ih
    rw [generations, hlater]
    have hself : ∀ p ∈ (n :: rest).map fun m => (depth, m), p.1 = depth := by
      intro p hp
      rcases List.mem_map.mp hp with ⟨m, -, rfl⟩
      rfl
    have hdeeper : ∀ p ∈ later, depth < p.1 :=
      fun p hp => lt_of_mem_depthListings ((ih.mem_iff p).mp hp)
    constructor
    · rw [List.pairwise_append]
      refine ⟨?_, ih.ascending, ?_⟩
      · apply List.pairwise_of_forall_mem_list
        intro a ha b hb
        exact Nat.le_of_eq ((hself a ha).trans (hself b hb).symm)
      · intro a ha b hb
        rw [hself a ha]
        exact Nat.le_of_lt (hdeeper b hb)
    · intro k
      rw [atDepth_append]
      by_cases hk : depth = k
      · subst hk
        rw [atDepth_eq_self hself, atDepth_eq_nil fun p hp => Nat.ne_of_gt (hdeeper p hp),
          List.append_nil, atDepth_depthListings_self]
      · have hnone : atDepth k ((n :: rest).map fun m => (depth, m)) = [] :=
          atDepth_eq_nil fun p hp hpk => hk ((hself p hp).symm.trans hpk)
        rw [hnone, List.nil_append, ih.same, atDepth_depthListings_other hk]

end Node

namespace Strategy

variable {α ε σ : Type} [IncludesErrors ε]

/-- **Breadth-first is pre-order, sorted by depth.** Take the nodes in the order in which pre-order
visits them, with their depths, and sort them by depth in a stable way. That is what breadth-first
visits, whatever the visitor; it calls no other hook and has no error of its own. So every occurrence of
a node is visited once, no node is visited before one that is less deep, and nodes of one depth are
visited in pre-order. -/
theorem breadth_first_sorts_pre_order (root : Option (Node α)) (v : Visitor α ε σ) :
    let placed := Node.depthListingOf root
    let sorted := placed.mergeSort notDeeper
    placed.map Prod.snd = preOrder.nodesTold root ∧
    breadthFirst.walk v root = v.replay (sorted.map fun p => .visit p.2) ∧
    sorted.Perm placed ∧
    sorted.Pairwise (fun a b => a.1 ≤ b.1) ∧
    ∀ depth, atDepth depth sorted = atDepth depth placed := by
  intro placed sorted
  have hsorted : SortedByDepth sorted placed := sortedByDepth_mergeSort placed
  refine ⟨?_, ?_, List.mergeSort_perm _ _, hsorted.ascending, hsorted.same⟩
  · rw [nodesTold_eq, Node.visited_scriptOf_preOrder]
    cases root with
    | none => rfl
    | some n => exact n.depthListing_map_node 0
  · have hscript : breadthFirst.scriptOf root = ⟨sorted.map fun p => .visit p.2, none⟩ := by
      cases root with
      | none =>
        have hnone : sorted = [] := List.mergeSort_nil
        rw [hnone]
        rfl
      | some n =>
        have hgenerations := Node.sortedByDepth_generations 0 [n]
        rw [List.flatMap_singleton] at hgenerations
        have hlevels : Node.levelOrder [n] = sorted.map Prod.snd := by
          rw [Node.levelOrder_eq_generations 0, hgenerations.unique hsorted]
        rw [scriptOf, script, hlevels, List.map_map]
        rfl
    rw [walk_eq_follow, hscript, Visitor.follow_calls]

end Strategy

end TreeTraversal
