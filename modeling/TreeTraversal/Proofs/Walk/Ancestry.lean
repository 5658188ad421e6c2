import Mathlib.Data.List.Nodup
import Mathlib.Logic.Relation
import TreeTraversal.Proofs.Plan.Listing
import TreeTraversal.Proofs.Walk.Levelled

/-!
# Ancestors by two orders

In pre-order an ancestor comes before what is below it, in post-order behind it. Nodes in different
branches come in the same order both times. So the two orders together tell which nodes are ancestors of
which, if all nodes have different data.
-/

namespace TreeTraversal

/-! ## 1. Items that cross -/

section Lists

variable {β γ : Type} {a b : β} {xs ys xs' ys' : List β}

/-- Whether an item stands somewhere before another in a list. -/
def Earlier (a b : β) (xs : List β) : Prop :=
  [a, b].Sublist xs

theorem Earlier.mem (h : Earlier a b xs) : a ∈ xs ∧ b ∈ xs := by
  simpa [List.subset_def] using h.subset

theorem earlier_cons_iff {c : β} : Earlier a b (c :: xs) ↔ Earlier a b xs ∨ (a = c ∧ b ∈ xs) := by
  unfold Earlier
  rw [List.cons_sublist_cons', List.singleton_sublist]

theorem earlier_append_iff :
    Earlier a b (xs ++ ys) ↔ Earlier a b xs ∨ (a ∈ xs ∧ b ∈ ys) ∨ Earlier a b ys := by
  induction xs with
  | nil => simp [Earlier]
  | cons c rest ih =>
    rw [List.cons_append, earlier_cons_iff, earlier_cons_iff, ih, List.mem_append, List.mem_cons]
    grind

/-- Whether an item stands before another in one list, and behind it in a second list. -/
def Crossed (a b : β) (xs ys : List β) : Prop :=
  Earlier a b xs ∧ Earlier b a ys

-- Items of two parts do not cross, as both lists have the parts in the same order.
theorem crossed_append_iff (hxs : ys.Perm xs) (hxs' : ys'.Perm xs') (hnodup : (xs ++ xs').Nodup) :
    Crossed a b (xs ++ xs') (ys ++ ys') ↔ Crossed a b xs ys ∨ Crossed a b xs' ys' := by
  have hapart : ∀ c ∈ xs, c ∉ xs' := fun c hc hc' => List.disjoint_of_nodup_append hnodup hc hc'
  have hmem : ∀ c, c ∈ ys ↔ c ∈ xs := fun c => hxs.mem_iff
  have hmem' : ∀ c, c ∈ ys' ↔ c ∈ xs' := fun c => hxs'.mem_iff
  constructor
  · rintro ⟨hfirst, hsecond⟩
    rcases earlier_append_iff.mp hfirst with hfirst | ⟨ha, hb⟩ | hfirst
    · -- both items are in the first part
      have hnot := hapart a hfirst.mem.1
      rcases earlier_append_iff.mp hsecond with hsecond | ⟨-, ha⟩ | hsecond
      · exact .inl ⟨hfirst, hsecond⟩
      · exact absurd ((hmem' a).mp ha) hnot
      · exact absurd ((hmem' a).mp hsecond.mem.2) hnot
    · -- they are in different parts, and the second list has them the other way round
      have hnot : b ∉ xs := fun hb' => hapart b hb' hb
      rcases earlier_append_iff.mp hsecond with hsecond | ⟨hb', -⟩ | hsecond
      · exact absurd ((hmem b).mp hsecond.mem.1) hnot
      · exact absurd ((hmem b).mp hb') hnot
      · exact absurd ((hmem' a).mp hsecond.mem.2) (hapart a ha)
    · -- both are in the second part
      have hnot : b ∉ xs := fun hb => hapart b hb hfirst.mem.2
      rcases earlier_append_iff.mp hsecond with hsecond | ⟨hb, -⟩ | hsecond
      · exact absurd ((hmem b).mp hsecond.mem.1) hnot
      · exact absurd ((hmem b).mp hb) hnot
      · exact .inr ⟨hfirst, hsecond⟩
  · rintro (⟨hfirst, hsecond⟩ | ⟨hfirst, hsecond⟩)
    · exact ⟨earlier_append_iff.mpr (.inl hfirst), earlier_append_iff.mpr (.inl hsecond)⟩
    · exact ⟨earlier_append_iff.mpr (.inr (.inr hfirst)), earlier_append_iff.mpr (.inr (.inr hsecond))⟩

theorem crossed_flatMap_iff {f g : γ → List β} {items : List γ}
    (hsame : ∀ c ∈ items, (g c).Perm (f c)) (hnodup : (items.flatMap f).Nodup) :
    Crossed a b (items.flatMap f) (items.flatMap g) ↔ ∃ c ∈ items, Crossed a b (f c) (g c) := by
  induction items with
  | nil => simp [Crossed, Earlier]
  | cons c rest ih =>
    have hrest : ∀ d ∈ rest, (g d).Perm (f d) := fun d hd => hsame d (List.mem_cons_of_mem c hd)
    rw [List.flatMap_cons] at hnodup
    rw [List.flatMap_cons, List.flatMap_cons,
      crossed_append_iff (hsame c List.mem_cons_self) (List.Perm.flatMap_left _ hrest) hnodup,
      ih hrest (List.nodup_append.mp hnodup).2.1, List.exists_mem_cons_iff]

theorem infix_flatMap {f : γ → List β} {items : List γ} {c : γ} (hc : c ∈ items) :
    f c <:+: items.flatMap f := by
  rw [List.flatMap_def]
  exact List.infix_of_mem_flatten (List.mem_map_of_mem hc)

-- An item in front of one list and at the end of the other crosses with all others.
theorem crossed_cons_iff {c : β} (hsame : ys.Perm xs) (hc : c ∉ xs) :
    Crossed a b (c :: xs) (ys ++ [c]) ↔ (a = c ∧ b ∈ xs) ∨ Crossed a b xs ys := by
  have hmem : ∀ d, d ∈ ys ↔ d ∈ xs := fun d => hsame.mem_iff
  have hend : Earlier b a (ys ++ [c]) ↔ Earlier b a ys ∨ (b ∈ xs ∧ a = c) := by
    rw [earlier_append_iff, hmem, List.mem_singleton]
    simp [Earlier]
  unfold Crossed
  rw [earlier_cons_iff, hend]
  constructor
  · rintro ⟨hfirst | hfirst, hsecond⟩
    · rcases hsecond with hsecond | ⟨-, rfl⟩
      · exact .inr ⟨hfirst, hsecond⟩
      · exact absurd hfirst.mem.1 hc
    · exact .inl hfirst
  · rintro (⟨ha, hb⟩ | ⟨hfirst, hsecond⟩)
    · exact ⟨.inr ⟨ha, hb⟩, .inr ⟨hb, ha⟩⟩
    · exact ⟨.inl hfirst, .inl hsecond⟩

end Lists

/-! ## 2. Ancestors -/

namespace Node

variable {α : Type} {u v root : Node α}

/-- Whether a node is in a slot of another. -/
def ParentOf (u v : Node α) : Prop :=
  v ∈ u.children

/-- Whether one or more slots lead from a node down to another. -/
def AncestorOf : Node α → Node α → Prop :=
  Relation.TransGen ParentOf

theorem mem_slotNodes_iff : v ∈ root.slotNodes ↔ Relation.ReflTransGen ParentOf root v := by
  induction root using induction_offspring with
  | step n ih =>
    have hbelow : (∃ c ∈ n.children, v ∈ c.slotNodes) ↔
        ∃ c, ParentOf n c ∧ Relation.ReflTransGen ParentOf c v :=
      exists_congr fun c => and_congr_right fun hc => ih c (mem_offspring_of_mem_children hc)
    rw [slotNodes_eq, List.mem_cons, List.mem_flatMap, hbelow, Relation.ReflTransGen.cases_head_iff,
      eq_comm]

theorem mem_slotNodes_iff_ancestorOf : v ∈ u.slotNodes ↔ v = u ∨ u.AncestorOf v := by
  rw [mem_slotNodes_iff, Relation.reflTransGen_iff_eq_or_transGen]
  rfl

theorem ancestorOf_iff : u.AncestorOf v ↔ v ∈ u.children.flatMap slotNodes := by
  unfold AncestorOf
  rw [Relation.TransGen.head'_iff, List.mem_flatMap]
  exact exists_congr fun c => and_congr_right fun _ => mem_slotNodes_iff.symm

end Node

/-! ## 3. The orders of pre-order and post-order -/

namespace Strategy

variable {α : Type} {s : Strategy} {u v root : Node α}

/-- The data of the nodes of a tree in the order in which a walk visits them. -/
def order (s : Strategy) (root : Node α) : List α :=
  (s.nodesTold (some root)).map Node.data

theorem order_eq_map_visited (s : Strategy) (root : Node α) :
    s.order root = (s.script root).visited.map Node.data := by
  rw [order, nodesTold_eq]
  rfl

theorem order_of_levelled (h : s.Levelled root) :
    s.order root = (s.levelsBefore root).flatten.flatMap s.order
      ++ root.data :: (s.levelsAfter root).flatten.flatMap s.order := by
  have hbelow : s.order = fun m : Node α => (s.script m).visited.map Node.data :=
    funext fun m => order_eq_map_visited s m
  rw [order_eq_map_visited, visited_of_levelled h, List.map_append, List.map_cons,
    List.map_flatMap, List.map_flatMap, hbelow]

theorem preOrder_order (n : Node α) :
    preOrder.order n = n.data :: n.children.flatMap preOrder.order := by
  rw [order_of_levelled (.preOrder n)]
  simp [levelsBefore, levelsAfter]

theorem postOrder_order (n : Node α) :
    postOrder.order n = n.children.flatMap postOrder.order ++ [n.data] := by
  rw [order_of_levelled (.postOrder n)]
  simp [levelsBefore, levelsAfter]

theorem order_perm (hbinary : s.needsBinary = false) (hlinked : s.needsLinked = false)
    (root : Node α) : (s.order root).Perm (root.slotNodes.map Node.data) := by
  rw [order_eq_map_visited]
  exact (script_covers_slotNodes hbinary hlinked root).2.map Node.data

theorem postOrder_perm_preOrder (n : Node α) : (postOrder.order n).Perm (preOrder.order n) :=
  (order_perm rfl rfl n).trans (order_perm rfl rfl n).symm

-- Every subtree is found as one block in the order of the whole tree.
theorem order_infix_of_mem (h : u ∈ root.slotNodes) :
    preOrder.order u <:+: preOrder.order root ∧ postOrder.order u <:+: postOrder.order root := by
  rw [Node.mem_slotNodes_iff] at h
  induction h with
  | refl => exact ⟨List.infix_refl _, List.infix_refl _⟩
  | @tail m c _ hc ih =>
    have hpre : preOrder.order c <:+: preOrder.order m := by
      rw [preOrder_order m]
      exact (infix_flatMap hc).trans (List.suffix_cons _ _).isInfix
    have hpost : postOrder.order c <:+: postOrder.order m := by
      rw [postOrder_order m]
      exact (infix_flatMap hc).trans (List.prefix_append _ _).isInfix
    exact ⟨hpre.trans ih.1, hpost.trans ih.2⟩

/-! ## 4. Ancestors cross with what is below them -/

theorem mem_order_below_iff (n : Node α) {b : α} :
    b ∈ n.children.flatMap preOrder.order ↔ ∃ v, n.AncestorOf v ∧ v.data = b := by
  have hperm : (n.children.flatMap preOrder.order).Perm
      ((n.children.flatMap Node.slotNodes).map Node.data) := by
    rw [List.map_flatMap]
    exact List.Perm.flatMap_left _ fun c _ => order_perm rfl rfl c
  rw [hperm.mem_iff, List.mem_map]
  exact exists_congr fun v => and_congr_left fun _ => Node.ancestorOf_iff.symm

-- The induction is on the tree: what crosses is the root with anything below it, or two nodes that cross
-- in the orders of one child.
theorem crossed_order_iff (hnodup : (preOrder.order root).Nodup) {a b : α} :
    Crossed a b (preOrder.order root) (postOrder.order root) ↔
      ∃ u ∈ root.slotNodes, u.data = a ∧ ∃ v, u.AncestorOf v ∧ v.data = b := by
  induction root using Node.induction_offspring with
  | step n ih =>
    rw [preOrder_order, List.nodup_cons] at hnodup
    have hsame : ∀ c ∈ n.children, (postOrder.order c).Perm (preOrder.order c) :=
      fun c _ => postOrder_perm_preOrder c
    have hchild : ∀ c ∈ n.children, (Crossed a b (preOrder.order c) (postOrder.order c) ↔
        ∃ u ∈ c.slotNodes, u.data = a ∧ ∃ v, u.AncestorOf v ∧ v.data = b) := by
      intro c hc
      have hpart : preOrder.order c <:+: n.children.flatMap preOrder.order := infix_flatMap hc
      exact ih c (Node.mem_offspring_of_mem_children hc) (hnodup.2.sublist hpart.sublist)
    rw [preOrder_order, postOrder_order,
      crossed_cons_iff (List.Perm.flatMap_left _ hsame) hnodup.1, crossed_flatMap_iff hsame hnodup.2,
      mem_order_below_iff, Node.slotNodes_eq, List.exists_mem_cons_iff, @eq_comm _ a]
    apply or_congr_right
    constructor
    · rintro ⟨c, hc, hcrossed⟩
      rcases (hchild c hc).mp hcrossed with ⟨u, hu, hdata⟩
      exact ⟨u, List.mem_flatMap.mpr ⟨c, hc, hu⟩, hdata⟩
    · rintro ⟨u, hu, hdata⟩
      rcases List.mem_flatMap.mp hu with ⟨c, hc, hu⟩
      exact ⟨c, hc, (hchild c hc).mpr ⟨u, hu, hdata⟩⟩

theorem ancestorOf_iff_crossed (hdistinct : (root.slotNodes.map Node.data).Nodup)
    (hu : u ∈ root.slotNodes) (hv : v ∈ root.slotNodes) :
    u.AncestorOf v ↔ Crossed u.data v.data (preOrder.order root) (postOrder.order root) := by
  have hnodup : (preOrder.order root).Nodup := (order_perm rfl rfl root).nodup_iff.mpr hdistinct
  have hsame : ∀ m ∈ root.slotNodes, ∀ n ∈ root.slotNodes, m.data = n.data → m = n :=
    fun m hm n hn => List.inj_on_of_nodup_map hdistinct hm hn
  rw [crossed_order_iff hnodup]
  constructor
  · intro h
    exact ⟨u, hu, rfl, v, h, rfl⟩
  · rintro ⟨u', hu', hudata, v', h, hvdata⟩
    -- different data leave no other nodes that could be meant
    have hv' : v' ∈ root.slotNodes := by
      rw [Node.mem_slotNodes_iff] at hu' ⊢
      exact hu'.trans h.to_reflTransGen
    rw [← hsame u' hu' u hu hudata, ← hsame v' hv' v hv hvdata]
    exact h

theorem collect_order (hbinary : s.needsBinary = false) (hlinked : s.needsLinked = false)
    (root : Node α) :
    (collect (some root) (.str s.key)).outcome
      = if root.shape = .linked ∧ root.isLeaf = false then
          .error (.unsuitedStrategy [.hiddenChildren s])
        else .ok (s.order root) := by
  have hissues : Plan.rootIssues s (some root)
      = if root.shape = .linked ∧ root.isLeaf = false then [.hiddenChildren s] else [] := by
    rw [Plan.rootIssues, Plan.shapeIssues, hbinary, hlinked]
    cases root <;> simp [Node.shape]
  by_cases hhidden : root.shape = .linked ∧ root.isLeaf = false
  · rw [if_pos hhidden] at hissues ⊢
    have hrefused : Plan.rootIssues s (some root) ≠ [] := by
      rw [hissues]
      exact List.cons_ne_nil _ _
    unfold collect
    rw [traverse_of_unsuited (ofValue_key s) hrefused, hissues]
    rfl
  · rw [if_neg hhidden] at hissues ⊢
    apply collect_of_yields (ofValue_key s) hissues
    exact ⟨(script_covers_slotNodes hbinary hlinked root).1, (order_eq_map_visited s root).symm⟩

/-- **Pre-order and post-order together decide ancestry.** Let the nodes that slots lead to have different
data. Then one of them is an ancestor of another just if its data come before those of the other in
pre-order and behind them in post-order. A node with all that is below it is one block in both orders,
which begins with the node in pre-order and ends with it in post-order. Both orders are what one call
collects, unless the root is a linked node with children: then both calls are refused. -/
theorem pre_and_post_order_decide_ancestry (root : Node α)
    (hdistinct : (root.slotNodes.map Node.data).Nodup) :
    (∀ u ∈ root.slotNodes, ∀ v ∈ root.slotNodes,
      (u.AncestorOf v ↔ Earlier u.data v.data (preOrder.order root) ∧
        Earlier v.data u.data (postOrder.order root))) ∧
    (∀ u ∈ root.slotNodes,
      (∀ v, v ∈ u.slotNodes ↔ v = u ∨ u.AncestorOf v) ∧
      (∃ below, preOrder.order u = u.data :: below) ∧
      (∃ below, postOrder.order u = below ++ [u.data]) ∧
      ∀ s ∈ [preOrder, postOrder],
        (s.order u).Perm (u.slotNodes.map Node.data) ∧ s.order u <:+: s.order root) ∧
    ∀ s ∈ [preOrder, postOrder], (collect (some root) (.str s.key)).outcome
      = if root.shape = .linked ∧ root.isLeaf = false then
          .error (.unsuitedStrategy [.hiddenChildren s])
        else .ok (s.order root) := by
  refine ⟨fun u hu v hv => ancestorOf_iff_crossed hdistinct hu hv, ?_, ?_⟩
  · intro u hu
    refine ⟨fun v => Node.mem_slotNodes_iff_ancestorOf, ⟨_, preOrder_order u⟩,
      ⟨_, postOrder_order u⟩, ?_⟩
    rw [List.forall_mem_cons, List.forall_mem_singleton]
    have hinfix := order_infix_of_mem hu
    exact ⟨⟨order_perm rfl rfl u, hinfix.1⟩, ⟨order_perm rfl rfl u, hinfix.2⟩⟩
  · rw [List.forall_mem_cons, List.forall_mem_singleton]
    exact ⟨collect_order rfl rfl root, collect_order rfl rfl root⟩

/-- The binary node on the left of a tree, and what is below it. -/
def twig : Node Nat :=
  .binary 2 none (some (.linked 3 none none))

/-- A tree of all shapes, with an empty slot between two branches. -/
def thicket : Node Nat :=
  .wide 1 false [some twig, none, some (.wide 4 true [])]

theorem thicket_ancestors_by_orders :
    (collect (some thicket) (.str "pre")).outcome = .ok [1, 2, 3, 4] ∧
    (collect (some thicket) (.str "post")).outcome = .ok [3, 2, 4, 1] ∧
    twig.AncestorOf (.linked 3 none none) ∧ ¬ twig.AncestorOf (.wide 4 true []) ∧
    preOrder.order twig <:+: [1, 2, 3, 4] ∧ postOrder.order twig <:+: [3, 2, 4, 1] := by
  have hpre : preOrder.order thicket = [1, 2, 3, 4] := by
    simp [thicket, twig, preOrder_order, Node.children, Node.slots, Node.data]
  have hpost : postOrder.order thicket = [3, 2, 4, 1] := by
    simp [thicket, twig, postOrder_order, Node.children, Node.slots, Node.data]
  have hdistinct : (thicket.slotNodes.map Node.data).Nodup := by
    simp [thicket, twig, Node.slotNodes_eq, Node.children, Node.slots, Node.data]
  have htwig : twig ∈ thicket.slotNodes := by
    simp [thicket, twig, Node.slotNodes_eq, Node.children, Node.slots]
  have hthree : .linked 3 none none ∈ thicket.slotNodes := by
    simp [thicket, twig, Node.slotNodes_eq, Node.children, Node.slots]
  have hfour : .wide 4 true [] ∈ thicket.slotNodes := by
    simp [thicket, twig, Node.slotNodes_eq, Node.children, Node.slots]
  obtain ⟨hdecides, hblocks, hcollect⟩ := pre_and_post_order_decide_ancestry thicket hdistinct
  have hbelow := (hblocks twig htwig).2.2.2
  rw [List.forall_mem_cons, List.forall_mem_singleton] at hcollect hbelow
  rw [hpre, hpost] at hbelow hcollect hdecides
  refine ⟨hcollect.1, hcollect.2, ?_, ?_, hbelow.1.2, hbelow.2.2⟩
  · rw [hdecides twig htwig _ hthree]
    unfold Earlier
    decide
  · rw [hdecides twig htwig _ hfour]
    unfold Earlier
    decide

end Strategy

end TreeTraversal
