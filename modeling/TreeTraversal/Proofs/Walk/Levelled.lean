import TreeTraversal.Proofs.Node.Position
import TreeTraversal.Proofs.Walk.Generations

/-!
# Walks level by level

Pre-order, post-order, in-order and sibling pre-order enter levels. Each of them visits a node between
some levels with nodes from below it, and does in each level the same for the nodes there. What makes
them different is which levels a node has, and which of these come before it.
-/

namespace TreeTraversal

-- In a row of scripts without faults nothing is left out.
theorem Script.sequence_of_no_faults {α β : Type} {script : β → Script α} {items : List β}
    (h : ∀ b ∈ items, (script b).fault = none) :
    sequence (items.map script) = ⟨items.flatMap fun b => (script b).calls, none⟩ := by
  induction items with
  | nil => rfl
  | cons b rest ih =>
    have hrest := ih fun c hc => h c (List.mem_cons_of_mem b hc)
    rw [List.map_cons, sequence_cons, andThen_of_none (h b List.mem_cons_self), hrest,
      List.flatMap_cons]

namespace Strategy

variable {α : Type} {s : Strategy} {n : Node α}

/-! ## 1. The levels of a node -/

/-- The levels of a node that a walk enters before it visits the node, each by the nodes in it. -/
def levelsBefore : Strategy → Node α → List (List (Node α))
  | .postOrder, n => [n.children]
  | .inOrder, .binary _ l _ => [l.toList]
  | _, _ => []

/-- The levels of a node that a walk enters after it has visited the node. -/
def levelsAfter : Strategy → Node α → List (List (Node α))
  | .preOrder, n => [n.children]
  | .inOrder, .binary _ _ r => [r.toList]
  | .siblingPreOrder, n => [n.offspring]
  | _, _ => []

/-- The offspring of a node, as a walk finds it in the levels of the node. -/
def offspring (s : Strategy) (n : Node α) : List (Node α) :=
  (s.levelsBefore n).flatten ++ (s.levelsAfter n).flatten

/-- The trees whose levels a strategy walks to the end: any tree for pre-order and post-order, and those
of its shape for in-order and sibling pre-order. -/
inductive Levelled : Strategy → Node α → Prop
  | preOrder (n : Node α) : Levelled .preOrder n
  | postOrder (n : Node α) : Levelled .postOrder n
  | inOrder {n : Node α} (h : n.Uniform .binary) : Levelled .inOrder n
  | siblingPreOrder {n : Node α} (h : n.Uniform .linked) : Levelled .siblingPreOrder n

theorem preOrder_offspring (n : Node α) : preOrder.offspring n = n.children := by
  simp [offspring, levelsBefore, levelsAfter]

theorem postOrder_offspring (n : Node α) : postOrder.offspring n = n.children := by
  simp [offspring, levelsBefore, levelsAfter]

theorem siblingPreOrder_offspring (n : Node α) : siblingPreOrder.offspring n = n.offspring := by
  simp [offspring, levelsBefore, levelsAfter]

theorem inOrder_offspring {n : Node α} (h : n.shape = .binary) :
    inOrder.offspring n = n.children := by
  cases n with
  | binary d l r => cases l <;> cases r <;> rfl
  | linked d f s => cases h
  | wide d isLast slots => cases h

theorem mem_offspring {m : Node α} (h : m ∈ s.offspring n) : m ∈ n.offspring := by
  cases s with
  | breadthFirst => simp [offspring, levelsBefore, levelsAfter] at h
  | iterativePreOrder => simp [offspring, levelsBefore, levelsAfter] at h
  | preOrder =>
    rw [preOrder_offspring] at h
    exact Node.mem_offspring_of_mem_children h
  | postOrder =>
    rw [postOrder_offspring] at h
    exact Node.mem_offspring_of_mem_children h
  | siblingPreOrder => rwa [siblingPreOrder_offspring] at h
  | inOrder =>
    cases n with
    | binary d l r =>
      rw [inOrder_offspring rfl] at h
      exact Node.mem_offspring_of_mem_children h
    | linked d f s => simp [offspring, levelsBefore, levelsAfter] at h
    | wide d isLast slots => simp [offspring, levelsBefore, levelsAfter] at h

theorem Levelled.of_mem_offspring (h : s.Levelled n) {m : Node α} (hm : m ∈ s.offspring n) :
    s.Levelled m := by
  have hbelow := mem_offspring hm
  cases h with
  | preOrder => exact .preOrder m
  | postOrder => exact .postOrder m
  | inOrder h => exact .inOrder ((Node.uniform_iff.mp h).2 m hbelow)
  | siblingPreOrder h => exact .siblingPreOrder ((Node.uniform_iff.mp h).2 m hbelow)

-- What is the same for all offspring of a node is the same in all its levels.
theorem flatMap_levels_congr {β : Type} {f g : Node α → List β}
    (h : ∀ m ∈ s.offspring n, f m = g m) :
    (s.levelsBefore n).flatten.flatMap f = (s.levelsBefore n).flatten.flatMap g ∧
      (s.levelsAfter n).flatten.flatMap f = (s.levelsAfter n).flatten.flatMap g := by
  constructor
  · exact List.flatMap_congr fun m hm => h m (List.mem_append_left _ hm)
  · exact List.flatMap_congr fun m hm => h m (List.mem_append_right _ hm)

/-! ## 2. The hooks of a walk, level by level -/

/-- The hooks of a level with these nodes. -/
def levelCalls (s : Strategy) (nodes : List (Node α)) : List (Event (Node α)) :=
  .enter :: (nodes.flatMap fun m => (s.script m).calls) ++ [.leave]

/-- A walk enters the levels before a node, visits the node, and enters the levels after it. -/
theorem script_of_levelled (h : s.Levelled n) :
    s.script n = ⟨(s.levelsBefore n).flatMap s.levelCalls
      ++ .visit n :: (s.levelsAfter n).flatMap s.levelCalls, none⟩ := by
  cases h with
  | preOrder =>
    rw [script, Node.preOrderCalls_eq]
    simp [levelsBefore, levelsAfter, levelCalls, script]
  | postOrder =>
    rw [script, Node.postOrderCalls_eq]
    simp [levelsBefore, levelsAfter, levelCalls, script]
  | inOrder h =>
    rcases Node.uniform_iff.mp h with ⟨hshape, hbelow⟩
    cases n with
    | linked d f s => cases hshape
    | wide d isLast slots => cases hshape
    | binary d l r =>
      -- neither side has a fault
      have hside : ∀ slot : Option (Node α),
          (∀ m ∈ slot.toList, m ∈ inOrder.offspring (.binary d l r)) →
          Node.inOrderSlotScript slot
            = ⟨slot.toList.flatMap fun m => (inOrder.script m).calls, none⟩ := by
        intro slot hmem
        rw [Node.inOrderSlotScript_eq]
        apply Script.sequence_of_no_faults
        intro m hm
        exact (Node.inOrderScript_covers (hbelow m (mem_offspring (hmem m hm)))).1
      have hleft := hside l (by simp +contextual [offspring, levelsBefore, levelsAfter])
      have hright := hside r (by simp +contextual [offspring, levelsBefore, levelsAfter])
      rw [script, Node.inOrderScript, hleft, hright]
      simp [levelsBefore, levelsAfter, levelCalls, Script.sequence, Script.andThen]
  | siblingPreOrder h =>
    rcases Node.uniform_iff.mp h with ⟨hshape, hbelow⟩
    have hchain : Script.sequence (n.offspring.map Node.siblingScript)
        = ⟨n.offspring.flatMap fun m => (siblingPreOrder.script m).calls, none⟩ :=
      Script.sequence_of_no_faults fun m hm => (Node.siblingScript_covers (hbelow m hm)).1
    rw [script, Node.siblingScript_of_linked hshape, hchain]
    simp [levelsBefore, levelsAfter, levelCalls, Script.sequence, Script.andThen]

theorem visited_levels (s : Strategy) (levels : List (List (Node α))) :
    (levels.flatMap s.levelCalls).filterMap Event.subject?
      = levels.flatten.flatMap fun m => (s.script m).visited := by
  induction levels with
  | nil => rfl
  | cons nodes rest ih =>
    rw [List.flatMap_cons, List.filterMap_append, ih, List.flatten_cons, List.flatMap_append]
    simp [levelCalls, Event.subject?, List.filterMap_cons, List.filterMap_flatMap, Script.visited]

theorem visited_of_levelled (h : s.Levelled n) :
    (s.script n).visited = ((s.levelsBefore n).flatten.flatMap fun m => (s.script m).visited)
      ++ n :: (s.levelsAfter n).flatten.flatMap fun m => (s.script m).visited := by
  rw [script_of_levelled h, Script.visited, List.filterMap_append, List.filterMap_cons,
    visited_levels, visited_levels]
  rfl

/-! ## 3. Depths -/

/-- The nodes of a tree in the order of a walk, each with its depth, which grows by one with each
level. -/
def placed (s : Strategy) (depth : Nat) (n : Node α) : List (Nat × Node α) :=
  ((s.levelsBefore n).flatten.attach.flatMap fun ⟨m, _⟩ => placed s (depth + 1) m)
    ++ (depth, n) :: (s.levelsAfter n).flatten.attach.flatMap fun ⟨m, _⟩ => placed s (depth + 1) m
termination_by sizeOf n
decreasing_by
  · exact Node.sizeOf_lt_of_mem_offspring (mem_offspring (List.mem_append_left _ ‹_›))
  · exact Node.sizeOf_lt_of_mem_offspring (mem_offspring (List.mem_append_right _ ‹_›))

theorem placed_eq (s : Strategy) (depth : Nat) (n : Node α) :
    s.placed depth n = (s.levelsBefore n).flatten.flatMap (s.placed (depth + 1))
      ++ (depth, n) :: (s.levelsAfter n).flatten.flatMap (s.placed (depth + 1)) := by
  rw [placed]
  simp

theorem placed_map_node (h : s.Levelled n) (depth : Nat) :
    (s.placed depth n).map Prod.snd = (s.script n).visited := by
  induction n using Node.induction_offspring generalizing depth with
  | step n ih =>
    have hbelow : ∀ m ∈ s.offspring n, (s.placed (depth + 1) m).map Prod.snd = (s.script m).visited :=
      fun m hm => ih m (mem_offspring hm) (h.of_mem_offspring hm) (depth + 1)
    rcases flatMap_levels_congr hbelow with ⟨hbefore, hafter⟩
    rw [placed_eq, List.map_append, List.map_cons, List.map_flatMap, List.map_flatMap, hbefore,
      hafter, visited_of_levelled h]

/-- The nodes of a tree with their depths, each before its offspring: what slots lead to, or for sibling
pre-order what links lead to. -/
def depths (s : Strategy) (depth : Nat) (n : Node α) : List (Nat × Node α) :=
  match s with
  | .siblingPreOrder => n.listing id depth
  | _ => n.depthListing depth

theorem depths_of_levelled (h : s.Levelled n) (depth : Nat) :
    s.depths depth n = (depth, n) :: (s.offspring n).flatMap (s.depths (depth + 1)) := by
  cases h with
  | preOrder =>
    rw [preOrder_offspring]
    exact n.depthListing_eq depth
  | postOrder =>
    rw [postOrder_offspring]
    exact n.depthListing_eq depth
  | inOrder h =>
    rw [inOrder_offspring (Node.uniform_iff.mp h).1]
    exact n.depthListing_eq depth
  | siblingPreOrder h =>
    rw [siblingPreOrder_offspring]
    exact n.listing_eq id depth

-- The walk has the nodes of some levels in front of a node and those of the others behind it.
theorem placed_perm_depths (h : s.Levelled n) (depth : Nat) :
    (s.placed depth n).Perm (s.depths depth n) := by
  induction n using Node.induction_offspring generalizing depth with
  | step n ih =>
    have hbelow : ((s.offspring n).flatMap (s.placed (depth + 1))).Perm
        ((s.offspring n).flatMap (s.depths (depth + 1))) :=
      List.Perm.flatMap_left _ fun m hm =>
        ih m (mem_offspring hm) (h.of_mem_offspring hm) (depth + 1)
    rw [offspring, List.flatMap_append] at hbelow
    rw [placed_eq, depths_of_levelled h]
    exact List.perm_middle.trans (hbelow.cons _)

/-! ## 4. Branches -/

/-- The nodes on a way from a node down to a leaf. -/
inductive Branch (s : Strategy) : Node α → List (Node α) → Prop
  | leaf {n : Node α} (h : s.offspring n = []) : Branch s n [n]
  | down {n m : Node α} {path : List (Node α)} (hm : m ∈ s.offspring n) (h : Branch s m path) :
      Branch s n (n :: path)

theorem exists_branch (s : Strategy) (n : Node α) : ∃ path, s.Branch n path := by
  induction n using Node.induction_offspring with
  | step n ih =>
    cases hoffspring : s.offspring n with
    | nil => exact ⟨[n], .leaf hoffspring⟩
    | cons m rest =>
      have hm : m ∈ s.offspring n := by simp [hoffspring]
      rcases ih m (mem_offspring hm) with ⟨path, hpath⟩
      exact ⟨n :: path, .down hm hpath⟩

-- What bounds the branches of a node bounds what is below it, one deeper.
theorem branches_le_iff {depth bound : Int} :
    (∀ path, s.Branch n path → depth + path.length ≤ bound) ↔
      depth + 1 ≤ bound ∧
        ∀ m ∈ s.offspring n, ∀ path, s.Branch m path → depth + 1 + path.length ≤ bound := by
  constructor
  · intro h
    have hdown : ∀ m ∈ s.offspring n, ∀ path, s.Branch m path →
        depth + 1 + path.length ≤ bound := by
      intro m hm path hpath
      have hle := h _ (.down hm hpath)
      rw [List.length_cons] at hle
      omega
    refine ⟨?_, hdown⟩
    rcases s.exists_branch n with ⟨path, hpath⟩
    have hle := h path hpath
    cases hpath with
    | leaf => exact hle
    | down =>
      rw [List.length_cons] at hle
      omega
  · intro h path hpath
    cases hpath with
    | leaf => exact h.1
    | @down _ m path hm hpath =>
      have hle := h.2 m hm path hpath
      rw [List.length_cons]
      omega

/-! ## 5. Trees that may be empty -/

/-- The nodes of a tree in the order of a walk, with their depths. -/
def placedOf (s : Strategy) : Option (Node α) → List (Nat × Node α)
  | none => []
  | some root => s.placed 0 root

/-- The nodes of a tree with their depths, each before its offspring. -/
def depthsOf (s : Strategy) : Option (Node α) → List (Nat × Node α)
  | none => []
  | some root => s.depths 0 root

/-- The nodes on a way from the root down to a leaf. An empty tree has one such way, without nodes. -/
def BranchOf (s : Strategy) : Option (Node α) → List (Node α) → Prop
  | none, path => path = []
  | some root, path => s.Branch root path

end Strategy

end TreeTraversal
