import TreeTraversal.Proofs.Plan.HiddenNodes

/-!
# Pre-order with a stack

Iterative pre-order comes to the nodes that pre-order visits, in the same order. It asks each of them
for its right side, and a node of another shape than the binary one has none, so that the walk ends
there. The nodes on the stack are taken with all that slots lead to from them: whatever is still to be
visited is on the stack or below a node on it.
-/

namespace TreeTraversal

namespace Node

variable {α : Type}

/-! ## 1. Asking for the right side -/

/-- The script of one step: the node is visited, and then asked for its right side. -/
def rightRead (n : Node α) : Script α :=
  ⟨[.visit n], if n.shape = .binary then none else some (.missingLink n.shape .right)⟩

theorem rightRead_of_binary {n : Node α} (h : n.shape = .binary) :
    n.rightRead = ⟨[.visit n], none⟩ := by
  rw [rightRead, if_pos h]

theorem rightRead_of_not_binary {n : Node α} (h : n.shape ≠ .binary) :
    n.rightRead = ⟨[.visit n], some (.missingLink n.shape .right)⟩ := by
  rw [rightRead, if_neg h]

/-- Steps on binary nodes only are visits of all of them. -/
theorem sequence_rightRead_of_binary {nodes : List (Node α)} (h : ∀ n ∈ nodes, n.shape = .binary) :
    Script.sequence (nodes.map rightRead) = ⟨nodes.map .visit, none⟩ := by
  induction nodes with
  | nil => rfl
  | cons n rest ih =>
    have hrest := ih fun m hm => h m (List.mem_cons_of_mem n hm)
    rw [List.map_cons, Script.sequence_cons, hrest, rightRead_of_binary (h n List.mem_cons_self)]
    rfl

/-- The first node of another shape is visited, and is the last one. -/
theorem sequence_rightRead_of_first {before : List (Node α)} {n : Node α}
    (hbefore : ∀ m ∈ before, m.shape = .binary) (hn : n.shape ≠ .binary) (after : List (Node α)) :
    Script.sequence ((before ++ n :: after).map rightRead)
      = ⟨(before ++ [n]).map .visit, some (.missingLink n.shape .right)⟩ := by
  have hstop : Script.sequence ((n :: after).map rightRead)
      = ⟨[.visit n], some (.missingLink n.shape .right)⟩ := by
    rw [List.map_cons, Script.sequence_cons, rightRead_of_not_binary hn]
    exact Script.andThen_of_fault rfl _
  rw [List.map_append, Script.sequence_append, sequence_rightRead_of_binary hbefore, hstop,
    List.map_append]
  rfl

/-! ## 2. The stack -/

-- A node of another shape may well have nodes in its slots, but nothing after its own step is reached.
theorem stackScript_eq (n : Node α) : n.stackScript = .sequence (n.slotNodes.map rightRead) := by
  induction n using induction_offspring with
  | step n ih =>
    rw [slotNodes_eq, List.map_cons, Script.sequence_cons, Script.sequence_flatMap]
    by_cases h : n.shape = .binary
    · have hbelow : n.children.map stackScript
          = n.children.map fun c => .sequence (c.slotNodes.map rightRead) :=
        List.map_congr_left fun c hc => ih c (mem_offspring_of_mem_children hc)
      rw [stackScript_of_binary h, rightRead_of_binary h, hbelow]
    · rw [stackScript_of_not_binary h, rightRead_of_not_binary h]
      exact (Script.andThen_of_fault rfl _).symm

theorem scriptOf_iterativePreOrder (root : Option (Node α)) :
    Strategy.iterativePreOrder.scriptOf root = .sequence ((slotNodesOf root).map rightRead) := by
  cases root with
  | none => rfl
  | some n => exact n.stackScript_eq

theorem visited_scriptOf_preOrder (root : Option (Node α)) :
    (Strategy.preOrder.scriptOf root).visited = slotNodesOf root := by
  cases root with
  | none => rfl
  | some n => exact n.visited_preOrderCalls

end Node

namespace Strategy

variable {α ε σ : Type}

/-- The nodes that a walk of a collecting visitor tells it to visit. -/
def nodesTold (s : Strategy) (root : Option (Node α)) : List (Node α) :=
  (s.told root).1.filterMap Event.subject?

theorem nodesTold_eq (s : Strategy) (root : Option (Node α)) :
    s.nodesTold root = (s.scriptOf root).visited := by
  rw [nodesTold, told_eq_script]
  rfl

theorem exists_first_not_binary {nodes : List (Node α)} (h : ¬ ∀ n ∈ nodes, n.shape = .binary) :
    ∃ before n after, nodes = before ++ n :: after ∧ (∀ m ∈ before, m.shape = .binary) ∧
      n.shape ≠ .binary := by
  have hsome : (nodes.find? fun n => decide (n.shape ≠ .binary)).isSome := by
    rw [List.find?_isSome]
    simpa using h
  rcases Option.isSome_iff_exists.mp hsome with ⟨n, hfind⟩
  rcases List.find?_eq_some_iff_append.mp hfind with ⟨hn, before, after, hsplit, hbefore⟩
  refine ⟨before, n, after, hsplit, ?_, of_decide_eq_true hn⟩
  simpa using hbefore

variable [IncludesErrors ε]

/-- **Iterative pre-order agrees with pre-order, and fails at the right place.** Let all nodes that
pre-order visits be binary. Then iterative pre-order visits them in the same order, calls no hook but
for these visits, and has no error of its own. Otherwise it visits them up to the first one that is not
binary, with that one, and then fails because the node has no link to a right side. Pre-order itself
has no error on any tree. -/
theorem iterative_walk_follows_pre_order (root : Option (Node α)) (v : Visitor α ε σ) :
    let nodes := preOrder.nodesTold root
    (preOrder.told root).2 = none ∧
    ((∀ n ∈ nodes, n.shape = .binary) →
      iterativePreOrder.walk v root = v.replay (nodes.map .visit)) ∧
    ((¬ ∀ n ∈ nodes, n.shape = .binary) →
      ∃ before n after, nodes = before ++ n :: after ∧ (∀ m ∈ before, m.shape = .binary) ∧
        n.shape ≠ .binary ∧
        iterativePreOrder.walk v root = (do
          v.replay ((before ++ [n]).map .visit)
          Error.raise (.missingLink n.shape .right))) := by
  intro nodes
  have hnodes : nodes = Node.slotNodesOf root := by
    show preOrder.nodesTold root = _
    rw [nodesTold_eq, Node.visited_scriptOf_preOrder]
  have hwalk : iterativePreOrder.walk v root
      = v.follow (.sequence (nodes.map Node.rightRead)) := by
    rw [walk_eq_follow, Node.scriptOf_iterativePreOrder, hnodes]
  refine ⟨?_, ?_, ?_⟩
  · rw [told_eq_script]
    cases root <;> rfl
  · intro hall
    rw [hwalk, Node.sequence_rightRead_of_binary hall, Visitor.follow_calls]
  · intro hsome
    rcases exists_first_not_binary hsome with ⟨before, n, after, hsplit, hbefore, hn⟩
    refine ⟨before, n, after, hsplit, hbefore, hn, ?_⟩
    rw [hwalk, hsplit, Node.sequence_rightRead_of_first hbefore hn]
    rfl

/-- A binary tree with a linked node on the right of its left side, and a binary node behind that. -/
def detour : Node Nat :=
  .binary 1
    (some (.binary 2 none (some (.linked 3 none none))))
    (some (.binary 4 none none))

theorem detour_walked_up_to_linked_node :
    (¬ ∀ n ∈ preOrder.nodesTold (some detour), n.shape = .binary) ∧
    (∃ before n after, preOrder.nodesTold (some detour) = before ++ n :: after ∧
      (∀ m ∈ before, m.shape = .binary) ∧ n.shape ≠ .binary ∧
      iterativePreOrder.walk (Collecting.visitor : Visitor Nat Error (Collecting Nat)) (some detour)
        = (do
          Collecting.visitor.replay ((before ++ [n]).map .visit)
          Error.raise (.missingLink n.shape .right))) ∧
    iterativePreOrder.walk (Collecting.visitor : Visitor Nat Error (Collecting Nat))
        (some (.binary 2 none (some (.binary 4 none none))))
      = Collecting.visitor.replay
        [.visit (.binary 2 none (some (.binary 4 none none))), .visit (.binary 4 none none)] := by
  have hdetour : ¬ ∀ n ∈ preOrder.nodesTold (some detour), n.shape = .binary := by
    rw [nodesTold_eq, Node.visited_scriptOf_preOrder]
    simp [detour, Node.slotNodesOf, Node.slotNodes_eq, Node.children, Node.slots, Node.shape]
  have hbinary : ∀ n ∈ preOrder.nodesTold (some (.binary 2 none (some (.binary 4 none none)))),
      n.shape = .binary := by
    rw [nodesTold_eq, Node.visited_scriptOf_preOrder]
    simp [Node.slotNodesOf, Node.slotNodes_eq, Node.children, Node.slots, Node.shape]
  exact ⟨hdetour,
    (iterative_walk_follows_pre_order (some detour) Collecting.visitor).2.2 hdetour,
    (iterative_walk_follows_pre_order _ Collecting.visitor).2.1 hbinary⟩

end Strategy

end TreeTraversal
