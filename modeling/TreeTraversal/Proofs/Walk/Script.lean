import TreeTraversal.Proofs.Node.Offspring
import TreeTraversal.Walk.Basic

/-!
# Scripts of walks

A walk never looks at its visitor: which hooks it calls, and whether it ends by an error of its own,
is settled by the tree. The script of a walk says just that, without any visitor. For each of the six
walks this module gives the script and proves that the walk is the same as following it.
-/

namespace TreeTraversal

/-! ## 1. Scripts and visitors that follow them -/

/-- The hooks that a walk calls, and the error of its own that it ends with, if it does. -/
structure Script (α : Type) where
  calls : List (Event (Node α)) := []
  fault : Option Error := none

namespace Script

variable {α ε σ : Type}

/-- One script after another. What comes after a fault is not reached. -/
def andThen (a b : Script α) : Script α :=
  match a.fault with
  | none => ⟨a.calls ++ b.calls, b.fault⟩
  | some e => ⟨a.calls, some e⟩

theorem andThen_of_none {a : Script α} (h : a.fault = none) (b : Script α) :
    a.andThen b = ⟨a.calls ++ b.calls, b.fault⟩ := by
  rw [andThen, h]

theorem andThen_of_fault {a : Script α} {e : Error} (h : a.fault = some e) (b : Script α) :
    a.andThen b = a := by
  rcases a with ⟨calls, fault⟩
  cases h
  rfl

/-- Some scripts one after another. -/
def sequence (scripts : List (Script α)) : Script α :=
  scripts.foldr andThen {}

theorem sequence_cons (a : Script α) (rest : List (Script α)) :
    sequence (a :: rest) = a.andThen (sequence rest) :=
  rfl

theorem andThen_assoc (a b c : Script α) : (a.andThen b).andThen c = a.andThen (b.andThen c) := by
  -- the first of the faults, if there are any, ends both sides
  rcases a with ⟨ca, _ | ea⟩ <;> rcases b with ⟨cb, _ | eb⟩ <;> simp [andThen]

theorem empty_andThen (a : Script α) : ({} : Script α).andThen a = a :=
  rfl

theorem sequence_singleton (a : Script α) : sequence [a] = a := by
  rcases a with ⟨calls, _ | e⟩ <;> simp [sequence, andThen]

theorem sequence_append (xs ys : List (Script α)) :
    sequence (xs ++ ys) = (sequence xs).andThen (sequence ys) := by
  induction xs with
  | nil => exact (empty_andThen (sequence ys)).symm
  | cons a rest ih => rw [List.cons_append, sequence_cons, sequence_cons, ih, andThen_assoc]

-- Items that come in parts are run through part by part.
theorem sequence_flatMap {β γ : Type} (script : γ → Script α) (parts : β → List γ) (items : List β) :
    sequence ((items.flatMap parts).map script)
      = sequence (items.map fun b => sequence ((parts b).map script)) := by
  induction items with
  | nil => rfl
  | cons b rest ih =>
    rw [List.flatMap_cons, List.map_append, sequence_append, ih, List.map_cons, sequence_cons]

/-- Ends by a fault, or without one. -/
def finish [IncludesErrors ε] : Option Error → EStateM ε σ Unit
  | none => pure ()
  | some e => Error.raise e

theorem finish_none [IncludesErrors ε] (s : σ) :
    (finish none : EStateM ε σ Unit) s = .ok () s :=
  rfl

theorem finish_some [IncludesErrors ε] (e : Error) (s : σ) :
    (finish (some e) : EStateM ε σ Unit) s = .error (IncludesErrors.ofError e) s :=
  rfl

end Script

namespace Visitor

variable {α ε σ : Type}

theorem replay_append (v : Visitor α ε σ) (xs ys : List (Event (Node α))) :
    v.replay (xs ++ ys) = (do v.replay xs; v.replay ys) := by
  induction xs with
  | nil => simp [replay]
  | cons e rest ih => simp [replay, ih]

-- A list that is walked item by item is replayed as a whole, if each item's walk is a replay.
theorem replay_flatMap {β : Type} (v : Visitor α ε σ) (calls : β → List (Event (Node α)))
    (walk : β → EStateM ε σ Unit) (items : List β)
    (h : ∀ b ∈ items, walk b = v.replay (calls b)) :
    items.forM walk = v.replay (items.flatMap calls) := by
  induction items with
  | nil => rfl
  | cons b rest ih =>
    have hrest := ih fun c hc => h c (List.mem_cons_of_mem b hc)
    rw [List.flatMap_cons, replay_append, ← hrest, ← h b List.mem_cons_self]
    rfl

variable [IncludesErrors ε]

/-- Calls the hooks of a script, up to the first that fails, and ends as the script does. -/
def follow (v : Visitor α ε σ) (script : Script α) : EStateM ε σ Unit := do
  v.replay script.calls
  Script.finish script.fault

theorem follow_nil (v : Visitor α ε σ) : v.follow (.sequence []) = pure () :=
  rfl

theorem follow_calls (v : Visitor α ε σ) (calls : List (Event (Node α))) :
    v.follow ⟨calls, none⟩ = v.replay calls := by
  simp [follow, Script.finish]

theorem raise_bind (e : Error) (next : Unit → EStateM ε σ Unit) :
    (Error.raise e >>= next) = (Error.raise e : EStateM ε σ Unit) :=
  rfl

theorem follow_andThen (v : Visitor α ε σ) (a b : Script α) :
    v.follow (a.andThen b) = (do v.follow a; v.follow b) := by
  rcases a with ⟨calls, _ | e⟩
  · simp [follow, Script.andThen, Script.finish, replay_append]
  · simp [follow, Script.andThen, Script.finish, raise_bind]

-- A list that is walked item by item is followed as a whole, if each item's walk follows a script.
theorem follow_sequence {β : Type} (v : Visitor α ε σ) (script : β → Script α)
    (walk : β → EStateM ε σ Unit) (items : List β)
    (h : ∀ b ∈ items, walk b = v.follow (script b)) :
    items.forM walk = v.follow (Script.sequence (items.map script)) := by
  induction items with
  | nil => rfl
  | cons b rest ih =>
    have hrest := ih fun c hc => h c (List.mem_cons_of_mem b hc)
    rw [List.map_cons, Script.sequence_cons, follow_andThen, ← hrest, ← h b List.mem_cons_self]
    rfl

end Visitor

/-! ## 2. The hooks of pre-order, post-order and breadth-first -/

namespace Node

variable {α : Type}

theorem mem_offspring_of_mem_children {m n : Node α} (h : m ∈ n.children) : m ∈ n.offspring := by
  cases n with
  | binary d l r => exact h
  | linked d f s => simp [children, slots] at h
  | wide d isLast slots => exact h

/-- The hooks of pre-order: a node, and its children inside a level. -/
def preOrderCalls (n : Node α) : List (Event (Node α)) :=
  .visit n :: .enter :: (n.children.attach.flatMap fun ⟨c, _⟩ => preOrderCalls c) ++ [.leave]
termination_by sizeOf n
decreasing_by exact sizeOf_lt_of_mem_children ‹_›

theorem preOrderCalls_eq (n : Node α) :
    n.preOrderCalls = .visit n :: .enter :: n.children.flatMap preOrderCalls ++ [.leave] := by
  unfold preOrderCalls
  simp

/-- The hooks of post-order: a node's children inside a level, and then the node. -/
def postOrderCalls (n : Node α) : List (Event (Node α)) :=
  .enter :: (n.children.attach.flatMap fun ⟨c, _⟩ => postOrderCalls c) ++ [.leave, .visit n]
termination_by sizeOf n
decreasing_by exact sizeOf_lt_of_mem_children ‹_›

theorem postOrderCalls_eq (n : Node α) :
    n.postOrderCalls = .enter :: n.children.flatMap postOrderCalls ++ [.leave, .visit n] := by
  unfold postOrderCalls
  simp

/-- The nodes of a queue and all below them in the order in which they leave the queue: the children of
the first node go to the end. -/
def levelOrder : (queue : List (Node α)) → List (Node α)
  | [] => []
  | n :: queue => n :: levelOrder (queue ++ n.children)
termination_by queue => sizeAll queue
decreasing_by
  simp only [sizeAll_append, sizeAll, size_eq_children n]
  omega

end Node

namespace Walk

variable {α ε σ : Type}

theorem preOrder_eq_replay (v : Visitor α ε σ) (n : Node α) :
    preOrder v n = v.replay n.preOrderCalls := by
  induction n using Node.induction_offspring with
  | step n ih =>
    have hchildren :
        n.children.forM (preOrder v) = v.replay (n.children.flatMap Node.preOrderCalls) :=
      v.replay_flatMap _ _ _ fun c hc => ih c (Node.mem_offspring_of_mem_children hc)
    rw [preOrder_eq, hchildren, Node.preOrderCalls_eq]
    simp [Visitor.replay, Visitor.handle, Visitor.replay_append]

theorem postOrder_eq_replay (v : Visitor α ε σ) (n : Node α) :
    postOrder v n = v.replay n.postOrderCalls := by
  induction n using Node.induction_offspring with
  | step n ih =>
    have hchildren :
        n.children.forM (postOrder v) = v.replay (n.children.flatMap Node.postOrderCalls) :=
      v.replay_flatMap _ _ _ fun c hc => ih c (Node.mem_offspring_of_mem_children hc)
    rw [postOrder_eq, hchildren, Node.postOrderCalls_eq]
    simp [Visitor.replay, Visitor.handle, Visitor.replay_append]

-- The two lists of the queue are one queue, of which the second holds the end backwards.
theorem breadthFirst_eq_replay (v : Visitor α ε σ) (front back : List (Node α)) :
    breadthFirst v front back
      = v.replay ((Node.levelOrder (front ++ back.reverse)).map Event.visit) := by
  -- by the steps of the walk itself: a visit, the turning of the back into a new front, and the end
  induction front, back using breadthFirst.induct with
  | case1 n front back ih =>
    rw [breadthFirst, ih, List.cons_append, Node.levelOrder]
    simp [Visitor.replay, Visitor.handle]
  | case2 n back ih =>
    rw [breadthFirst, ih]
    simp
  | case3 =>
    rw [breadthFirst]
    simp [Node.levelOrder, Visitor.replay]

end Walk

/-! ## 3. The scripts of the walks that need one shape -/

namespace Node

variable {α : Type}

/-- The script of iterative pre-order for a node that it takes from its stack: it asks a node of another
shape for its right side once the node is visited. -/
def stackScript (n : Node α) : Script α :=
  match n.shape with
  | .binary =>
    (⟨[.visit n], none⟩ : Script α).andThen
      (.sequence (n.children.attach.map fun ⟨c, _⟩ => stackScript c))
  | other => ⟨[.visit n], some (.missingLink other .right)⟩
termination_by sizeOf n
decreasing_by exact sizeOf_lt_of_mem_children ‹_›

theorem stackScript_of_binary {n : Node α} (h : n.shape = .binary) :
    n.stackScript = (⟨[.visit n], none⟩ : Script α).andThen
      (.sequence (n.children.map stackScript)) := by
  unfold stackScript
  rw [h]
  simp

theorem stackScript_of_not_binary {n : Node α} (h : n.shape ≠ .binary) :
    n.stackScript = ⟨[.visit n], some (.missingLink n.shape .right)⟩ := by
  unfold stackScript
  split
  · exact absurd ‹_› h
  · rfl

/-- The script of sibling pre-order: it asks a node of another shape for its first child once the level
of the children is entered. -/
def siblingScript (n : Node α) : Script α :=
  match n.shape with
  | .linked =>
    .sequence [⟨[.visit n, .enter], none⟩,
      .sequence (n.offspring.attach.map fun ⟨c, _⟩ => siblingScript c), ⟨[.leave], none⟩]
  | other => ⟨[.visit n, .enter], some (.missingLink other .firstChild)⟩
termination_by sizeOf n
decreasing_by exact sizeOf_lt_of_mem_offspring ‹_›

theorem siblingScript_of_linked {n : Node α} (h : n.shape = .linked) :
    n.siblingScript = .sequence [⟨[.visit n, .enter], none⟩,
      .sequence (n.offspring.map siblingScript), ⟨[.leave], none⟩] := by
  unfold siblingScript
  rw [h]
  simp

theorem siblingScript_of_not_linked {n : Node α} (h : n.shape ≠ .linked) :
    n.siblingScript = ⟨[.visit n, .enter], some (.missingLink n.shape .firstChild)⟩ := by
  unfold siblingScript
  split
  · exact absurd ‹_› h
  · rfl

mutual

/-- The script of in-order: it asks a node of another shape for its left side once the level of that
side is entered. -/
def inOrderScript : Node α → Script α
  | binary d l r =>
    .sequence [⟨[.enter], none⟩, inOrderSlotScript l, ⟨[.leave, .visit (binary d l r), .enter], none⟩,
      inOrderSlotScript r, ⟨[.leave], none⟩]
  | linked .. => ⟨[.enter], some (.missingLink .linked .left)⟩
  | wide .. => ⟨[.enter], some (.missingLink .wide .left)⟩

/-- The script of in-order for what is in a slot. -/
def inOrderSlotScript : Option (Node α) → Script α
  | none => {}
  | some n => inOrderScript n

end

end Node

namespace Walk

variable {α ε σ : Type} [IncludesErrors ε]

theorem iterativePreOrder_eq_follow (v : Visitor α ε σ) (stack : List (Node α)) :
    iterativePreOrder v stack = v.follow (.sequence (stack.map Node.stackScript)) := by
  induction stack using iterativePreOrder.induct with
  | case1 =>
    rw [iterativePreOrder]
    rfl
  | case2 d l r rest ih =>
    -- what goes on top of the stack are the children of the node
    have hchildren : l.toList ++ (r.toList ++ rest) = (Node.binary d l r).children ++ rest := by
      cases l <;> cases r <;> rfl
    rw [hchildren] at ih
    rw [iterativePreOrder, hchildren, ih, List.map_cons, Script.sequence_cons,
      Node.stackScript_of_binary rfl, Script.andThen_assoc, ← Script.sequence_append,
      ← List.map_append, Visitor.follow_andThen, Visitor.follow_calls]
    simp [Visitor.replay, Visitor.handle]
  | case3 d f s rest =>
    rw [iterativePreOrder, List.map_cons, Script.sequence_cons, Visitor.follow_andThen,
      Node.stackScript_of_not_binary (by simp [Node.shape])]
    simp [Visitor.follow, Visitor.replay, Visitor.handle, Script.finish, Visitor.raise_bind,
      Node.shape]
  | case4 d isLast slots rest =>
    rw [iterativePreOrder, List.map_cons, Script.sequence_cons, Visitor.follow_andThen,
      Node.stackScript_of_not_binary (by simp [Node.shape])]
    simp [Visitor.follow, Visitor.replay, Visitor.handle, Script.finish, Visitor.raise_bind,
      Node.shape]

theorem siblingChain_eq_forM (v : Visitor α ε σ) (start : Option (Node α)) :
    siblingChain v start = (Node.chain start).forM (siblingPreOrder v) := by
  induction start using Node.chain.induct with
  | case1 => simp [siblingChain, Node.chain]
  | case2 d f s ih => simp [siblingChain, Node.chain, ih]
  | case3 d l r => simp [siblingChain, Node.chain]
  | case4 d isLast slots => simp [siblingChain, Node.chain]

-- Sibling pre-order walks the offspring of a linked node as pre-order walks those of the others.
theorem siblingPreOrder_eq (v : Visitor α ε σ) {n : Node α} (h : n.shape = .linked) :
    siblingPreOrder v n = (do
      v.visit n
      v.enter
      n.offspring.forM (siblingPreOrder v)
      v.leave) := by
  cases n with
  | linked d f s => rw [siblingPreOrder, siblingChain_eq_forM, Node.offspring]
  | binary d l r => cases h
  | wide d isLast slots => cases h

theorem siblingPreOrder_eq_follow (v : Visitor α ε σ) (n : Node α) :
    siblingPreOrder v n = v.follow n.siblingScript := by
  induction n using Node.induction_offspring with
  | step n ih =>
    cases n with
    | linked d f s =>
      have hoffspring := v.follow_sequence Node.siblingScript (siblingPreOrder v) _ ih
      rw [siblingPreOrder_eq v rfl, hoffspring, Node.siblingScript_of_linked rfl]
      simp [Script.sequence_cons, Visitor.follow_andThen, Visitor.follow_calls, Visitor.follow_nil,
        Visitor.replay, Visitor.handle]
    | binary d l r =>
      rw [siblingPreOrder, Node.siblingScript_of_not_linked (by simp [Node.shape])]
      simp [Visitor.follow, Visitor.replay, Visitor.handle, Script.finish, Node.shape]
    | wide d isLast slots =>
      rw [siblingPreOrder, Node.siblingScript_of_not_linked (by simp [Node.shape])]
      simp [Visitor.follow, Visitor.replay, Visitor.handle, Script.finish, Node.shape]

mutual

theorem inOrder_eq_follow (v : Visitor α ε σ) (n : Node α) :
    inOrder v n = v.follow n.inOrderScript := by
  cases n with
  | binary d l r =>
    have hl := inOrderSlot_eq_follow v l
    have hr := inOrderSlot_eq_follow v r
    rw [inOrder, hl, hr, Node.inOrderScript]
    simp [Script.sequence_cons, Visitor.follow_andThen, Visitor.follow_calls, Visitor.follow_nil,
      Visitor.replay, Visitor.handle]
  | linked d f s => simp [inOrder, Node.inOrderScript, Visitor.follow, Visitor.replay, Visitor.handle,
      Script.finish]
  | wide d isLast slots => simp [inOrder, Node.inOrderScript, Visitor.follow, Visitor.replay,
      Visitor.handle, Script.finish]

theorem inOrderSlot_eq_follow (v : Visitor α ε σ) (slot : Option (Node α)) :
    inOrderSlot v slot = v.follow (Node.inOrderSlotScript slot) := by
  cases slot with
  | none => rfl
  | some n => exact inOrder_eq_follow v n

end

end Walk

/-! ## 4. The script of a strategy -/

namespace Strategy

variable {α ε σ : Type}

/-- What a strategy does to every visitor on a tree. -/
def script (s : Strategy) (root : Node α) : Script α :=
  match s with
  | .breadthFirst => ⟨(Node.levelOrder [root]).map .visit, none⟩
  | .preOrder => ⟨root.preOrderCalls, none⟩
  | .iterativePreOrder => root.stackScript
  | .postOrder => ⟨root.postOrderCalls, none⟩
  | .inOrder => root.inOrderScript
  | .siblingPreOrder => root.siblingScript

/-- What a strategy does to every visitor on a tree that may be empty. -/
def scriptOf (s : Strategy) : Option (Node α) → Script α
  | none => {}
  | some root => s.script root

variable [IncludesErrors ε]

theorem walk_eq_follow (s : Strategy) (v : Visitor α ε σ) (root : Option (Node α)) :
    s.walk v root = v.follow (s.scriptOf root) := by
  cases root with
  | none => rfl
  | some n =>
    cases s with
    | breadthFirst =>
      have h := Walk.breadthFirst_eq_replay v [n] []
      rw [walk, walkNode, h]
      exact (v.follow_calls _).symm
    | preOrder =>
      rw [walk, walkNode, Walk.preOrder_eq_replay]
      exact (v.follow_calls _).symm
    | iterativePreOrder =>
      rw [walk, walkNode, Walk.iterativePreOrder_eq_follow, List.map_singleton,
        Script.sequence_singleton]
      rfl
    | postOrder =>
      rw [walk, walkNode, Walk.postOrder_eq_replay]
      exact (v.follow_calls _).symm
    | inOrder =>
      rw [walk, walkNode]
      exact Walk.inOrder_eq_follow v n
    | siblingPreOrder =>
      rw [walk, walkNode]
      exact Walk.siblingPreOrder_eq_follow v n

end Strategy

end TreeTraversal
