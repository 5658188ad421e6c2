import TreeTraversal.Proofs.Visitor.Levels
import TreeTraversal.Proofs.Walk.Levelled

/-!
# Depths that are recorded

A recording visitor knows of no tree: the depth that it writes beside an event is the number of levels
that are open. For a walk that goes level by level this is the depth of the node in the tree, the
greatest one tells the length of the longest branch, and each level has one depth for both its brackets.
-/

namespace TreeTraversal

-- Counts in lists add up, and so do the lengths that each of them is a multiple of.
theorem countP_flatMap_eq_mul {β γ δ : Type} {p : γ → Bool} {f : β → List γ} {g : β → List δ}
    {items : List β} {k : Nat} (h : ∀ b ∈ items, (f b).countP p = k * (g b).length) :
    (items.flatMap f).countP p = k * (items.flatMap g).length := by
  induction items with
  | nil => rfl
  | cons b rest ih =>
    have hrest := ih fun c hc => h c (List.mem_cons_of_mem b hc)
    rw [List.flatMap_cons, List.flatMap_cons, List.countP_append, List.length_append,
      h b List.mem_cons_self, hrest, Nat.mul_add]

/-! ## 1. What is written for some hooks -/

namespace DepthEvent

variable {α : Type}

/-- What was visited and at which depth, if the event is a visit. -/
def visit? (e : DepthEvent α) : Option (α × Int) :=
  e.event.subject?.map fun a => (a, e.depth)

def isEnter : DepthEvent α → Bool
  | ⟨.visit _, _⟩ => false
  | ⟨.enter, _⟩ => true
  | ⟨.leave, _⟩ => false

def isLeave : DepthEvent α → Bool
  | ⟨.visit _, _⟩ => false
  | ⟨.enter, _⟩ => false
  | ⟨.leave, _⟩ => true

/-- Events that nest at a depth. A visit has this depth, and so have an `enter` and the `leave` that
belongs to it; what is between these two nests one deeper. -/
inductive NestedAt : Int → List (DepthEvent α) → Prop
  | nil (depth : Int) : NestedAt depth []
  | visit {depth : Int} (a : α) {rest : List (DepthEvent α)} (hrest : NestedAt depth rest) :
      NestedAt depth (⟨.visit a, depth⟩ :: rest)
  | level {depth : Int} {inner rest : List (DepthEvent α)} (hinner : NestedAt (depth + 1) inner)
      (hrest : NestedAt depth rest) :
      NestedAt depth (⟨.enter, depth⟩ :: (inner ++ ⟨.leave, depth⟩ :: rest))

theorem NestedAt.countP_leave {depth : Int} {events : List (DepthEvent α)}
    (h : NestedAt depth events) : events.countP isLeave = events.countP isEnter := by
  induction h with
  | nil depth => rfl
  | visit a _ ih => simpa [isLeave, isEnter] using ih
  | level _ _ ihinner ihrest =>
    rw [List.countP_cons_of_neg (by simp [isLeave]), List.countP_cons_of_pos rfl,
      List.countP_append, List.countP_append, List.countP_cons_of_pos rfl,
      List.countP_cons_of_neg (by simp [isEnter]), ihinner, ihrest]
    omega

end DepthEvent

open DepthEvent

namespace Recording

variable {α ε : Type}

/-- What a recording visitor writes for some hooks from a depth on. -/
def written (depth : Int) : List (Event (Node α)) → List (DepthEvent α)
  | [] => []
  | .visit n :: rest => ⟨.visit n.data, depth⟩ :: written depth rest
  | .enter :: rest => ⟨.enter, depth⟩ :: written (depth + 1) rest
  | .leave :: rest => ⟨.leave, depth - 1⟩ :: written (depth - 1) rest

-- The three hooks, each by what it does to the state.
theorem afterAll_visit (n : Node α) (rest : List (Event (Node α))) (r : Recording α) :
    (visitor : Visitor α ε (Recording α)).afterAll r (.visit n :: rest)
      = (visitor : Visitor α ε (Recording α)).afterAll (visit n.data r) rest :=
  rfl

theorem afterAll_enter (rest : List (Event (Node α))) (r : Recording α) :
    (visitor : Visitor α ε (Recording α)).afterAll r (.enter :: rest)
      = (visitor : Visitor α ε (Recording α)).afterAll (enter r) rest :=
  rfl

theorem afterAll_leave (rest : List (Event (Node α))) (r : Recording α) :
    (visitor : Visitor α ε (Recording α)).afterAll r (.leave :: rest)
      = (visitor : Visitor α ε (Recording α)).afterAll (leave r) rest :=
  rfl

theorem entries_afterAll (calls : List (Event (Node α))) (r : Recording α) :
    ((visitor : Visitor α ε (Recording α)).afterAll r calls).entries.toList
      = r.entries.toList ++ written r.depth calls := by
  induction calls generalizing r with
  | nil => exact (List.append_nil _).symm
  | cons event rest ih =>
    cases event with
    | visit n =>
      rw [afterAll_visit, ih]
      simp [visit, written]
    | enter =>
      rw [afterAll_enter, ih]
      simp [enter, written]
    | leave =>
      rw [afterAll_leave, ih]
      simp [leave, written]

-- The greatest depth is reached inside of a level, one below the depth written beside its `enter`.
theorem maxDepth_afterAll_le_iff (calls : List (Event (Node α))) (r : Recording α) (bound : Int) :
    ((visitor : Visitor α ε (Recording α)).afterAll r calls).maxDepth ≤ bound ↔
      r.maxDepth ≤ bound ∧ ∀ e ∈ written r.depth calls, e.isEnter → e.depth + 1 ≤ bound := by
  induction calls generalizing r with
  | nil => simp [Visitor.afterAll, written]
  | cons event rest ih =>
    cases event with
    | visit n =>
      rw [afterAll_visit, ih]
      simp [visit, written, isEnter]
    | enter =>
      have hmax : r.enter.maxDepth ≤ bound ↔ r.maxDepth ≤ bound ∧ r.depth + 1 ≤ bound := Int.max_le
      rw [afterAll_enter, ih, hmax, and_assoc]
      simp [enter, written, isEnter]
    | leave =>
      rw [afterAll_leave, ih]
      simp [leave, written, isEnter]

/-! ## 2. What is written for hooks that nest -/

theorem written_append {calls : List (Event (Node α))} (h : Nested calls) (depth : Int)
    (later : List (Event (Node α))) :
    written depth (calls ++ later) = written depth calls ++ written depth later := by
  induction h generalizing depth later with
  | nil => rfl
  | visit n _ ih =>
    rw [List.cons_append, written, written, ih, List.cons_append]
  | @level inner rest _ _ ihinner ihrest =>
    rw [List.cons_append, List.append_assoc, List.cons_append, written, written, ihinner, ihinner,
      written, written, Int.add_sub_cancel, ihrest]
    simp

theorem written_flatMap {β : Type} {calls : β → List (Event (Node α))} {items : List β}
    (h : ∀ b ∈ items, Nested (calls b)) (depth : Int) :
    written depth (items.flatMap calls) = items.flatMap fun b => written depth (calls b) := by
  induction items with
  | nil => rfl
  | cons b rest ih =>
    have hrest := ih fun c hc => h c (List.mem_cons_of_mem b hc)
    rw [List.flatMap_cons, written_append (h b List.mem_cons_self), hrest, List.flatMap_cons]

theorem nestedAt_written {calls : List (Event (Node α))} (h : Nested calls) (depth : Int) :
    NestedAt depth (written depth calls) := by
  induction h generalizing depth with
  | nil => exact .nil depth
  | visit n _ ih => exact .visit n.data (ih depth)
  | @level inner rest hinner _ ihinner ihrest =>
    rw [written, written_append hinner, written, Int.add_sub_cancel]
    exact .level (ihinner (depth + 1)) (ihrest depth)

end Recording

/-! ## 3. What is written for a walk -/

namespace Strategy

variable {α ε : Type} {s : Strategy} {n : Node α}

/-- What is written for a tree from a depth on. -/
def written (s : Strategy) (depth : Int) (n : Node α) : List (DepthEvent α) :=
  Recording.written depth (s.script n).calls

/-- What is written for a level with these nodes. -/
def writtenLevel (s : Strategy) (depth : Int) (nodes : List (Node α)) : List (DepthEvent α) :=
  ⟨.enter, depth⟩ :: nodes.flatMap (s.written (depth + 1)) ++ [⟨.leave, depth⟩]

theorem nested_script (h : s.Levelled n) : Nested (s.script n).calls := by
  have hfault : (s.script n).fault = none := by rw [script_of_levelled h]
  exact (s.bracketed_scriptOf (some n)).nested hfault

theorem nested_levelCalls {nodes : List (Node α)} (h : ∀ m ∈ nodes, s.Levelled m) :
    Nested (s.levelCalls nodes) :=
  (Nested.flatMap fun m hm => nested_script (h m hm)).wrap

theorem written_levelCalls {nodes : List (Node α)} (h : ∀ m ∈ nodes, s.Levelled m) (depth : Int) :
    Recording.written depth (s.levelCalls nodes) = s.writtenLevel depth nodes := by
  have hinner : ∀ m ∈ nodes, Nested (s.script m).calls := fun m hm => nested_script (h m hm)
  rw [levelCalls, List.cons_append, Recording.written, Recording.written_append (.flatMap hinner),
    Recording.written_flatMap hinner, Recording.written, Recording.written, Int.add_sub_cancel]
  rfl

theorem written_levels {levels : List (List (Node α))} (h : ∀ m ∈ levels.flatten, s.Levelled m)
    (depth : Int) :
    Recording.written depth (levels.flatMap s.levelCalls)
      = levels.flatMap (s.writtenLevel depth) := by
  have hnodes : ∀ nodes ∈ levels, ∀ m ∈ nodes, s.Levelled m :=
    fun nodes hlevel m hm => h m (List.mem_flatten_of_mem hlevel hm)
  rw [Recording.written_flatMap fun nodes hlevel => nested_levelCalls (hnodes nodes hlevel)]
  exact List.flatMap_congr fun nodes hlevel => written_levelCalls (hnodes nodes hlevel) depth

theorem written_eq (h : s.Levelled n) (depth : Int) :
    s.written depth n = (s.levelsBefore n).flatMap (s.writtenLevel depth)
      ++ ⟨.visit n.data, depth⟩ :: (s.levelsAfter n).flatMap (s.writtenLevel depth) := by
  have hbefore : ∀ m ∈ (s.levelsBefore n).flatten, s.Levelled m :=
    fun m hm => h.of_mem_offspring (List.mem_append_left _ hm)
  have hafter : ∀ m ∈ (s.levelsAfter n).flatten, s.Levelled m :=
    fun m hm => h.of_mem_offspring (List.mem_append_right _ hm)
  have hnested : Nested ((s.levelsBefore n).flatMap s.levelCalls) :=
    .flatMap fun nodes hlevel => nested_levelCalls fun m hm =>
      hbefore m (List.mem_flatten_of_mem hlevel hm)
  rw [written, script_of_levelled h, Recording.written_append hnested, Recording.written,
    written_levels hbefore, written_levels hafter]

theorem visits_writtenLevels (s : Strategy) (depth : Int) (levels : List (List (Node α))) :
    (levels.flatMap (s.writtenLevel depth)).filterMap visit?
      = levels.flatten.flatMap fun m => (s.written (depth + 1) m).filterMap visit? := by
  induction levels with
  | nil => rfl
  | cons nodes rest ih =>
    rw [List.flatMap_cons, List.filterMap_append, ih, List.flatten_cons, List.flatMap_append]
    simp [writtenLevel, visit?, Event.subject?, List.filterMap_cons, List.filterMap_flatMap]

-- The visits are those of the walk, each with the depth of its node.
theorem visits_written (h : s.Levelled n) (depth : Nat) :
    (s.written depth n).filterMap visit?
      = (s.placed depth n).map fun p => (p.2.data, (p.1 : Int)) := by
  induction n using Node.induction_offspring generalizing depth with
  | step n ih =>
    have hbelow : ∀ m ∈ s.offspring n, (s.written (depth + 1) m).filterMap visit?
        = (s.placed (depth + 1) m).map fun p => (p.2.data, (p.1 : Int)) :=
      fun m hm => ih m (mem_offspring hm) (h.of_mem_offspring hm) (depth + 1)
    rcases flatMap_levels_congr hbelow with ⟨hbefore, hafter⟩
    rw [written_eq h, List.filterMap_append, List.filterMap_cons, visits_writtenLevels,
      visits_writtenLevels, hbefore, hafter, placed_eq, List.map_append, List.map_cons,
      List.map_flatMap, List.map_flatMap]
    rfl

/-- How many levels a walk has for each node. -/
def levelsPerNode : Strategy → Nat
  | .inOrder => 2
  | _ => 1

theorem levelsPerNode_pos (s : Strategy) : 0 < s.levelsPerNode := by
  cases s <;> decide

theorem length_levels (h : s.Levelled n) :
    (s.levelsBefore n).length + (s.levelsAfter n).length = s.levelsPerNode := by
  cases h with
  | preOrder => rfl
  | postOrder => rfl
  | siblingPreOrder h => rfl
  | inOrder h =>
    have hshape := (Node.uniform_iff.mp h).1
    cases n with
    | binary d l r => rfl
    | linked d f s => cases hshape
    | wide d isLast slots => cases hshape

theorem enters_writtenLevels (s : Strategy) (depth : Int) (levels : List (List (Node α))) :
    (levels.flatMap (s.writtenLevel depth)).countP isEnter
      = levels.length + (levels.flatten.flatMap (s.written (depth + 1))).countP isEnter := by
  induction levels with
  | nil => rfl
  | cons nodes rest ih =>
    have hlevel : (s.writtenLevel depth nodes).countP isEnter
        = 1 + (nodes.flatMap (s.written (depth + 1))).countP isEnter := by
      rw [writtenLevel, List.cons_append, List.countP_cons_of_pos rfl, List.countP_append,
        List.countP_singleton, Nat.add_comm]
      rfl
    rw [List.flatMap_cons, List.countP_append, ih, hlevel, List.flatten_cons, List.flatMap_append,
      List.countP_append, List.length_cons]
    omega

theorem enters_written (h : s.Levelled n) (depth : Nat) :
    (s.written depth n).countP isEnter = s.levelsPerNode * (s.placed depth n).length := by
  induction n using Node.induction_offspring generalizing depth with
  | step n ih =>
    have hbelow : ∀ nodes : List (Node α), (∀ m ∈ nodes, m ∈ s.offspring n) →
        (nodes.flatMap (s.written (depth + 1))).countP isEnter
          = s.levelsPerNode * (nodes.flatMap (s.placed (depth + 1))).length := by
      intro nodes hnodes
      apply countP_flatMap_eq_mul
      intro m hm
      have hm := hnodes m hm
      exact ih m (mem_offspring hm) (h.of_mem_offspring hm) (depth + 1)
    have hbefore := hbelow _ fun m hm => List.mem_append_left _ hm
    have hafter := hbelow _ fun m hm => List.mem_append_right _ hm
    have hvisit : ¬ isEnter ⟨.visit n.data, (depth : Int)⟩ = true := by simp [isEnter]
    have hlevels := length_levels h
    rw [written_eq h, List.countP_append, List.countP_cons_of_neg hvisit, enters_writtenLevels,
      enters_writtenLevels, hbefore, hafter, placed_eq, List.length_append, List.length_cons,
      Nat.mul_add, Nat.mul_succ, ← hlevels]
    omega

-- Every node has a level, and whatever else is entered is entered below one of its offspring.
theorem enter_mem_written_iff (h : s.Levelled n) {depth : Int} {e : DepthEvent α}
    (he : e.isEnter = true) :
    e ∈ s.written depth n ↔
      e = ⟨.enter, depth⟩ ∨ ∃ m ∈ s.offspring n, e ∈ s.written (depth + 1) m := by
  have hvisit : e ≠ ⟨.visit n.data, depth⟩ := by
    rintro rfl
    cases he
  have hleave : e ≠ ⟨.leave, depth⟩ := by
    rintro rfl
    cases he
  have hlevel : ∀ nodes, e ∈ s.writtenLevel depth nodes ↔
      e = ⟨.enter, depth⟩ ∨ ∃ m ∈ nodes, e ∈ s.written (depth + 1) m := by
    simp [writtenLevel, hleave]
  have hmem : e ∈ s.written depth n ↔
      ∃ nodes ∈ s.levelsBefore n ++ s.levelsAfter n, e ∈ s.writtenLevel depth nodes := by
    rw [written_eq h]
    simp [hvisit, or_and_right, exists_or]
  have hoffspring : s.offspring n = (s.levelsBefore n ++ s.levelsAfter n).flatten :=
    List.flatten_append.symm
  rw [hmem, hoffspring]
  constructor
  · rintro ⟨nodes, hnodes, he⟩
    rcases (hlevel nodes).mp he with he | ⟨m, hm, he⟩
    · exact .inl he
    · exact .inr ⟨m, List.mem_flatten_of_mem hnodes hm, he⟩
  · rintro (rfl | ⟨m, hm, he⟩)
    · have hpos : 0 < (s.levelsBefore n ++ s.levelsAfter n).length := by
        rw [List.length_append, length_levels h]
        exact s.levelsPerNode_pos
      rcases List.exists_mem_of_length_pos hpos with ⟨nodes, hnodes⟩
      exact ⟨nodes, hnodes, (hlevel nodes).mpr (.inl rfl)⟩
    · rcases List.mem_flatten.mp hm with ⟨nodes, hnodes, hm⟩
      exact ⟨nodes, hnodes, (hlevel nodes).mpr (.inr ⟨m, hm, he⟩)⟩

theorem enters_le_iff (h : s.Levelled n) (depth bound : Int) :
    (∀ e ∈ s.written depth n, e.isEnter → e.depth + 1 ≤ bound) ↔
      ∀ path, s.Branch n path → depth + path.length ≤ bound := by
  induction n using Node.induction_offspring generalizing depth with
  | step n ih =>
    have hoffspring : ∀ m ∈ s.offspring n,
        (∀ e ∈ s.written (depth + 1) m, e.isEnter → e.depth + 1 ≤ bound) ↔
          ∀ path, s.Branch m path → depth + 1 + path.length ≤ bound :=
      fun m hm => ih m (mem_offspring hm) (h.of_mem_offspring hm) (depth + 1)
    rw [branches_le_iff]
    constructor
    · intro hall
      refine ⟨hall ⟨.enter, depth⟩ ((enter_mem_written_iff h rfl).mpr (.inl rfl)) rfl, ?_⟩
      intro m hm
      apply (hoffspring m hm).mp
      intro e he henter
      exact hall e ((enter_mem_written_iff h henter).mpr (.inr ⟨m, hm, he⟩)) henter
    · intro hall e he henter
      rcases (enter_mem_written_iff h henter).mp he with rfl | ⟨m, hm, he⟩
      · exact hall.1
      · exact (hoffspring m hm).mpr (hall.2 m hm) e he henter

/-! ## 4. Depths of a walk -/

variable [IncludesErrors ε]

theorem walk_eq_recorded (h : s.Levelled n) :
    s.walk (Recording.visitor : Visitor α ε (Recording α)) (some n) {}
      = .ok () ((Recording.visitor : Visitor α ε (Recording α)).afterAll {} (s.script n).calls) := by
  rw [walk_eq_follow, scriptOf, script_of_levelled h, Visitor.follow_calls]
  exact Recording.replay_eq_ok _ _

/-- **The depth of brackets is the depth in the tree.** Let a fresh recording visitor be told of any tree
by pre-order or post-order, of a binary tree by in-order, or of a linked tree by sibling pre-order. The
walk has no error. Beside each visit stands the depth of the node that is visited, and beside `enter` and
the `leave` that belongs to it the depth of the level around them. The greatest depth is the number of
nodes on the longest way from the root to a leaf. The visitor ends balanced, without an underflow, and
has as many `enter` as `leave`: one of each for every node, or two for in-order. -/
theorem recorded_depth_is_tree_depth (s : Strategy) (root : Option (Node α))
    (h : ∀ n ∈ root, s.Levelled n) :
    ∃ r, s.walk (Recording.visitor : Visitor α ε (Recording α)) root {} = .ok () r ∧
      ((s.placedOf root).map Prod.snd = s.nodesTold root ∧
        (s.placedOf root).Perm (s.depthsOf root) ∧
        r.entries.toList.filterMap visit?
          = (s.placedOf root).map fun p => (p.2.data, (p.1 : Int))) ∧
      NestedAt 0 r.entries.toList ∧
      ((∀ path, s.BranchOf root path → path.length ≤ r.maxDepth) ∧
        ∃ path, s.BranchOf root path ∧ path.length = r.maxDepth) ∧
      (r.isBalanced = true ∧ r.underflow = false) ∧
      r.entries.toList.countP isEnter = s.levelsPerNode * (s.depthsOf root).length ∧
      r.entries.toList.countP isLeave = s.levelsPerNode * (s.depthsOf root).length := by
  cases root with
  | none =>
    refine ⟨{}, rfl, ⟨?_, .refl _, rfl⟩, .nil 0, ⟨?_, [], rfl, rfl⟩, ⟨rfl, rfl⟩, ?_, ?_⟩
    · rw [nodesTold_eq]
      rfl
    · rintro path rfl
      exact Int.le_refl 0
    · rfl
    · rfl
  | some n =>
    have hn := h n rfl
    let r := (Recording.visitor : Visitor α ε (Recording α)).afterAll {} (s.script n).calls
    have hentries : r.entries.toList = s.written 0 n := Recording.entries_afterAll _ _
    have hlevels : Recording.SameLevels {} r :=
      Recording.sameLevels_afterAll (nested_script hn) (.inl (Int.le_refl 0))
    have hnested : NestedAt 0 r.entries.toList := by
      rw [hentries]
      exact Recording.nestedAt_written (nested_script hn) 0
    have hlength : (s.placed 0 n).length = (s.depths 0 n).length :=
      (placed_perm_depths hn 0).length_eq
    have henters : r.entries.toList.countP isEnter = s.levelsPerNode * (s.depths 0 n).length := by
      rw [hentries, ← hlength]
      exact enters_written hn 0
    have hmax : ∀ bound, r.maxDepth ≤ bound ↔ ∀ path, s.Branch n path → path.length ≤ bound := by
      intro bound
      have hwritten : r.maxDepth ≤ bound ↔
          0 ≤ bound ∧ ∀ e ∈ s.written 0 n, e.isEnter → e.depth + 1 ≤ bound :=
        Recording.maxDepth_afterAll_le_iff (s.script n).calls {} bound
      rw [hwritten, enters_le_iff hn 0 bound]
      simp only [Int.zero_add, and_iff_right_iff_imp]
      intro hall
      rcases s.exists_branch n with ⟨path, hpath⟩
      exact Int.le_trans (Int.natCast_nonneg _) (hall path hpath)
    refine ⟨r, walk_eq_recorded hn, ⟨?_, placed_perm_depths hn 0, ?_⟩, hnested, ⟨?_, ?_⟩, ?_, henters,
      hnested.countP_leave.trans henters⟩
    · rw [nodesTold_eq]
      exact placed_map_node hn 0
    · rw [hentries]
      exact visits_written hn 0
    · exact (hmax r.maxDepth).mp (Int.le_refl _)
    · -- otherwise all branches would be shorter, and the greatest depth less than it is
      by_contra hnone
      have hless : r.maxDepth ≤ r.maxDepth - 1 := by
        rw [hmax]
        intro path hpath
        have hle := (hmax r.maxDepth).mp (Int.le_refl _) path hpath
        have hne : (path.length : Int) ≠ r.maxDepth := fun heq => hnone ⟨path, hpath, heq⟩
        omega
      omega
    · refine ⟨?_, hlevels.underflow_eq⟩
      rw [Recording.isBalanced, hlevels.depth_eq, hlevels.underflow_eq]
      rfl

/-- A binary tree whose longest branch turns to the right and then to the left. -/
def zigzag : Node Nat :=
  .binary 1 none (some (.binary 2 (some (.binary 3 none none)) none))

-- The greatest depth in the recording tells how long the branches are.
theorem zigzag_recorded_in_order :
    ∃ r, inOrder.walk (Recording.visitor : Visitor Nat Error (Recording Nat)) (some zigzag) {}
        = .ok () r ∧
      r.entries.toList.filterMap visit? = [(1, 0), (3, 2), (2, 1)] ∧
      r.entries.toList.countP isEnter = 6 ∧ r.maxDepth = 3 ∧
      (∀ path, inOrder.BranchOf (some zigzag) path → path.length ≤ (3 : Int)) ∧
      ∃ path, inOrder.BranchOf (some zigzag) path ∧ path.length = (3 : Int) := by
  have hbinary : zigzag.Uniform .binary := by
    simp [zigzag, Node.Uniform, Node.nodes_eq, Node.offspring, Node.children, Node.slots, Node.shape]
  have hlevelled : ∀ n ∈ some zigzag, inOrder.Levelled n := by
    rintro n ⟨⟩
    exact .inOrder hbinary
  obtain ⟨r, hrun, ⟨-, hperm, hvisits⟩, -, hbranches, -, henters, -⟩ :=
    recorded_depth_is_tree_depth (ε := Error) inOrder (some zigzag) hlevelled
  have hplaced : (inOrder.placedOf (some zigzag)).map (fun p => (p.2.data, (p.1 : Int)))
      = [(1, 0), (3, 2), (2, 1)] := by
    simp [zigzag, placedOf, placed_eq, levelsBefore, levelsAfter, Node.data]
  have hlength := congrArg List.length hplaced
  rw [List.length_map, hperm.length_eq] at hlength
  refine ⟨r, hrun, hvisits.trans hplaced, ?_, ?_⟩
  · rw [henters, hlength]
    rfl
  · have hmax : r.maxDepth = 3 := by
      cases hrun
      rfl
    rw [hmax] at hbranches
    exact ⟨hmax, hbranches⟩

end Strategy

end TreeTraversal
