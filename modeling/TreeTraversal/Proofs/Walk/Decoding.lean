import TreeTraversal.Proofs.Walk.Seen

/-!
# Reading a tree off its hooks

The hooks of a walk say where each level begins and where it ends. So they determine the tree that the
walk sees, although the hooks of all nodes in a level stand next to each other. In-order enters two levels
for each node, also where a side is missing, so that its hooks determine a binary tree as a whole.
-/

namespace TreeTraversal.Strategy

variable {α β : Type} {s : Strategy} {a b n : Node α} {view : Node α → β}

/-! ## 1. Hooks that are told apart from what follows them -/

/-- Whether a view of nodes is made up of their data and of the view of what is in their levels. -/
def Composes (s : Strategy) (view : Node α → β) : Prop :=
  ∀ a b : Node α, s.Levelled a → s.Levelled b → a.data = b.data →
    (s.levelsBefore a).map (List.map view) = (s.levelsBefore b).map (List.map view) →
    (s.levelsAfter a).map (List.map view) = (s.levelsAfter b).map (List.map view) →
    view a = view b

/-- Whether the hooks of a node can be told from any hooks that follow them, and determine the view of
the node. -/
def Delimits (s : Strategy) (view : Node α → β) (a : Node α) : Prop :=
  ∀ (b : Node α) (rest rest' : List (Event α)), s.Levelled b →
    s.heard (some a) ++ rest = s.heard (some b) ++ rest' → view a = view b ∧ rest = rest'

-- A node is visited or has a level entered before any level is left.
theorem heard_ne_leave (h : s.Levelled n) (rest rest' : List (Event α)) :
    s.heard (some n) ++ rest ≠ .leave :: rest' := by
  rw [heard_of_levelled h]
  cases s.levelsBefore n with
  | nil => simp
  | cons nodes levels => simp [heardLevel]

/-- A level ends where it is left. The induction goes through the nodes of both levels at once. -/
theorem delimits_level {xs ys : List (Node α)} {rest rest' : List (Event α)}
    (hxs : ∀ x ∈ xs, s.Levelled x ∧ s.Delimits view x) (hys : ∀ y ∈ ys, s.Levelled y)
    (h : (xs.flatMap fun m => s.heard (some m)) ++ .leave :: rest
      = (ys.flatMap fun m => s.heard (some m)) ++ .leave :: rest') :
    xs.map view = ys.map view ∧ rest = rest' := by
  induction xs generalizing ys with
  | nil =>
    cases ys with
    | nil => exact ⟨rfl, (List.cons.inj h).2⟩
    | cons y ys =>
      rw [List.flatMap_cons, List.append_assoc] at h
      exact absurd h.symm (heard_ne_leave (hys y List.mem_cons_self) _ _)
  | cons x xs ih =>
    have hx := hxs x List.mem_cons_self
    cases ys with
    | nil =>
      rw [List.flatMap_cons, List.append_assoc] at h
      exact absurd h (heard_ne_leave hx.1 _ _)
    | cons y ys =>
      rw [List.flatMap_cons, List.flatMap_cons, List.append_assoc, List.append_assoc] at h
      obtain ⟨hview, hothers⟩ := hx.2 y _ _ (hys y List.mem_cons_self) h
      obtain ⟨hviews, hrest⟩ := ih (fun z hz => hxs z (List.mem_cons_of_mem x hz))
        (fun z hz => hys z (List.mem_cons_of_mem y hz)) hothers
      exact ⟨by rw [List.map_cons, List.map_cons, hview, hviews], hrest⟩

theorem delimits_levels {xss yss : List (List (Node α))} {rest rest' : List (Event α)}
    (hlength : xss.length = yss.length)
    (hxss : ∀ x ∈ xss.flatten, s.Levelled x ∧ s.Delimits view x)
    (hyss : ∀ y ∈ yss.flatten, s.Levelled y)
    (h : xss.flatMap s.heardLevel ++ rest = yss.flatMap s.heardLevel ++ rest') :
    xss.map (List.map view) = yss.map (List.map view) ∧ rest = rest' := by
  induction xss generalizing yss with
  | nil =>
    rw [List.length_nil, eq_comm, List.length_eq_zero_iff] at hlength
    subst hlength
    exact ⟨rfl, h⟩
  | cons xs xss ih =>
    cases yss with
    | nil => cases hlength
    | cons ys yss =>
      rw [List.flatten_cons, List.forall_mem_append] at hxss hyss
      -- both sides enter a level, and the nodes of the two levels can be compared
      have hlevel : (xs.flatMap fun m => s.heard (some m))
            ++ .leave :: (xss.flatMap s.heardLevel ++ rest)
          = (ys.flatMap fun m => s.heard (some m))
            ++ .leave :: (yss.flatMap s.heardLevel ++ rest') := by
        simpa [heardLevel] using h
      obtain ⟨hviews, hothers⟩ := delimits_level hxss.1 hyss.1 hlevel
      obtain ⟨hlevels, hrest⟩ := ih (Nat.succ.inj hlength) hxss.2 hyss.2 hothers
      exact ⟨by rw [List.map_cons, List.map_cons, hviews, hlevels], hrest⟩

-- A walk has the same number of levels before each node, and after it.
theorem length_levels_eq (ha : s.Levelled a) (hb : s.Levelled b) :
    (s.levelsBefore a).length = (s.levelsBefore b).length ∧
      (s.levelsAfter a).length = (s.levelsAfter b).length := by
  cases ha with
  | preOrder => exact ⟨rfl, rfl⟩
  | postOrder => exact ⟨rfl, rfl⟩
  | siblingPreOrder => exact ⟨rfl, rfl⟩
  | inOrder ha =>
    cases hb with
    | inOrder hb =>
      have hshape := (Node.uniform_iff.mp ha).1
      have hshape' := (Node.uniform_iff.mp hb).1
      cases a <;> cases hshape
      cases b <;> cases hshape'
      exact ⟨rfl, rfl⟩

theorem delimits_of_composes (hview : s.Composes view) (ha : s.Levelled a) : s.Delimits view a := by
  induction a using Node.induction_offspring with
  | step a ih =>
    intro b rest rest' hb h
    have hbelow : ∀ x ∈ s.offspring a, s.Levelled x ∧ s.Delimits view x := fun x hx =>
      ⟨ha.of_mem_offspring hx, ih x (mem_offspring hx) (ha.of_mem_offspring hx)⟩
    have hbelow' : ∀ y ∈ s.offspring b, s.Levelled y := fun y hy => hb.of_mem_offspring hy
    rw [offspring, List.forall_mem_append] at hbelow hbelow'
    obtain ⟨hbefore, hafter⟩ := length_levels_eq ha hb
    rw [heard_of_levelled ha, heard_of_levelled hb, List.append_assoc, List.append_assoc] at h
    -- the levels before the node, the visit, and the levels after it are cut off one after the other
    obtain ⟨hviewsBefore, hvisit⟩ := delimits_levels hbefore hbelow.1 hbelow'.1 h
    rw [List.cons_append, List.cons_append, List.cons.injEq, Event.visit.injEq] at hvisit
    obtain ⟨hviewsAfter, hrest⟩ := delimits_levels hafter hbelow.2 hbelow'.2 hvisit.2
    exact ⟨hview a b ha hb hvisit.1 hviewsBefore hviewsAfter, hrest⟩

/-! ## 2. What is determined -/

theorem composes_seen (s : Strategy) : s.Composes (seen s : Node α → OrderedTree α) := by
  intro a b _ _ hdata hbefore hafter
  rw [seen_eq, seen_eq, hdata, offspring, offspring, List.map_append, List.map_append,
    List.map_flatten, List.map_flatten, List.map_flatten, List.map_flatten, hbefore, hafter]

-- The two levels of a binary node are its two slots.
theorem inOrder_composes_id : inOrder.Composes (id : Node α → Node α) := by
  intro a b ha hb hdata hbefore hafter
  cases ha with
  | inOrder ha =>
    cases hb with
    | inOrder hb =>
      have hshape := (Node.uniform_iff.mp ha).1
      have hshape' := (Node.uniform_iff.mp hb).1
      cases a with
      | linked d f s => cases hshape
      | wide d isLast slots => cases hshape
      | binary d l r =>
        cases b with
        | linked d f s => cases hshape'
        | wide d isLast slots => cases hshape'
        | binary d' l' r' =>
          have hl : l.toList = l'.toList := by simpa [levelsBefore] using hbefore
          have hr : r.toList = r'.toList := by simpa [levelsAfter] using hafter
          have hd : d = d' := hdata
          rw [id, id, hd, ← @Option.head?_toList _ l, ← @Option.head?_toList _ r, hl, hr,
            Option.head?_toList, Option.head?_toList]

theorem view_eq_of_heard_eq (hview : s.Composes view) {a b : Option (Node α)}
    (ha : ∀ n ∈ a, s.Levelled n) (hb : ∀ n ∈ b, s.Levelled n) (h : s.heard a = s.heard b) :
    a.map view = b.map view := by
  have hsome : ∀ n : Node α, s.Levelled n → s.heard (some n) ≠ [] := by
    intro n hn
    rw [heard_of_levelled hn]
    simp
  cases a with
  | none =>
    cases b with
    | none => rfl
    | some b => exact absurd h.symm (hsome b (hb b rfl))
  | some a =>
    cases b with
    | none => exact absurd h (hsome a (ha a rfl))
    | some b =>
      have happend : s.heard (some a) ++ [] = s.heard (some b) ++ [] := by rw [h]
      exact congrArg some (delimits_of_composes hview (ha a rfl) b [] [] (hb b rfl) happend).1

/-- **Hooks determine the tree.** If a collecting visitor holds the same after a walk of two trees, the
walk sees the same ordered tree in both: the same data in the same places, once holes are dropped. That
is so for pre-order and post-order on any trees, for sibling pre-order on trees of linked nodes, and for
in-order on trees of binary nodes. With in-order the trees are the same as a whole, so that also the
same slots are empty. -/
theorem hooks_determine_tree {ε : Type} [IncludesErrors ε] {a b : Option (Node α)}
    (ha : ∀ n ∈ a, s.Levelled n) (hb : ∀ n ∈ b, s.Levelled n)
    (h : stateLeft (s.walk (Collecting.visitor : Visitor α ε (Collecting α)) a) {}
      = stateLeft (s.walk (Collecting.visitor : Visitor α ε (Collecting α)) b) {}) :
    a.map s.seen = b.map s.seen ∧ (s = .inOrder → a = b) := by
  have hheard : s.heard a = s.heard b := by
    simpa [stateLeft_collecting] using h
  refine ⟨view_eq_of_heard_eq (composes_seen s) ha hb hheard, ?_⟩
  rintro rfl
  have hsame := view_eq_of_heard_eq inOrder_composes_id ha hb hheard
  simpa using hsame

/-- A binary tree of three nodes. -/
def fork : Node Nat :=
  .binary 1 (some (.binary 2 none none)) (some (.binary 3 none none))

/-- The same data in nodes of all shapes, with holes between them. -/
def holedFork : Node Nat :=
  .wide 1 false [none, some (.linked 2 none (some fork)), none, some (.wide 3 true [none])]

/-- A binary tree that in-order visits in the same order as the next one. -/
def leftArm : Node Nat :=
  .binary 2 (some (.binary 1 none none)) none

def rightArm : Node Nat :=
  .binary 1 none (some (.binary 2 none none))

theorem seen_holedFork_eq_and_heard_arms_ne :
    preOrder.seen fork = preOrder.seen holedFork ∧
      (inOrder.nodesTold (some leftArm)).map Node.data = [1, 2] ∧
      (inOrder.nodesTold (some rightArm)).map Node.data = [1, 2] ∧
      inOrder.heard (some leftArm) ≠ inOrder.heard (some rightArm) := by
  have hforks := hooks_determine_tree (s := .preOrder) (ε := Error) (a := some fork)
    (b := some holedFork) (fun n _ => .preOrder n) (fun n _ => .preOrder n) rfl
  refine ⟨Option.some.inj hforks.1, rfl, rfl, ?_⟩
  have hleft : leftArm.Uniform .binary := by
    simp [leftArm, Node.Uniform, Node.nodes_eq, Node.offspring, Node.children, Node.slots, Node.shape]
  have hright : rightArm.Uniform .binary := by
    simp [rightArm, Node.Uniform, Node.nodes_eq, Node.offspring, Node.children, Node.slots,
      Node.shape]
  intro hsame
  have harms := hooks_determine_tree (s := .inOrder) (ε := Error) (a := some leftArm)
    (b := some rightArm) (fun n hn => by cases hn; exact .inOrder hleft)
    (fun n hn => by cases hn; exact .inOrder hright)
    (by rw [stateLeft_collecting, stateLeft_collecting, hsame])
  cases harms.2 rfl

end TreeTraversal.Strategy
