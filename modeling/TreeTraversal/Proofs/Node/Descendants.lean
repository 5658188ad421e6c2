import TreeTraversal.Proofs.Node.Ownership
import TreeTraversal.Proofs.Walk.Transparency
import TreeTraversal.Proofs.Walk.Visited

/-!
# Descendants of a stored node

The descendants of a node are found from the calls alone: the nodes it was given, the nodes that those
were given, and so on. Where every node has one owner, they form a tree, and this is the tree that the
links in the store unfold to. So sibling pre-order visits a node and its descendants, each of them once,
although the node's own link may lead to a sibling.
-/

namespace TreeTraversal

open Relation

variable {α : Type}

/-! ## 1. Descent -/

/-- The nodes that a node was given when it was made. -/
def childrenOf (run : List (Making α)) (a : NodeId) : List NodeId :=
  run[a.index]?.elim [] Making.children

/-- Whether a node was given to another one. -/
def ParentOf (run : List (Making α)) (a b : NodeId) : Prop :=
  b ∈ childrenOf run a

/-- A node and its descendants, each before its own. -/
def family (run : List (Making α)) (a : NodeId) : List NodeId :=
  a :: (childrenOf run a).flatMap fun c => if c.index < a.index then family run c else []
termination_by a.index

section Descent

variable {run : List (Making α)} {m : Making α} {a b c q : NodeId}

theorem childrenOf_eq (hm : run[a.index]? = some m) : childrenOf run a = m.children := by
  rw [childrenOf, hm]
  rfl

theorem exists_of_mem_childrenOf (h : b ∈ childrenOf run a) :
    ∃ m, run[a.index]? = some m ∧ b ∈ m.children := by
  cases hm : run[a.index]? with
  | none =>
    rw [childrenOf, hm] at h
    cases h
  | some m => exact ⟨m, rfl, childrenOf_eq hm ▸ h⟩

theorem BuiltBefore.index_lt (h : BuiltBefore run) (hb : b ∈ childrenOf run a) :
    b.index < a.index := by
  obtain ⟨m, hm, hb⟩ := exists_of_mem_childrenOf hb
  exact h a.index m hm b hb

theorem family_eq (h : BuiltBefore run) (a : NodeId) :
    family run a = a :: (childrenOf run a).flatMap (family run) := by
  have hbelow : ((childrenOf run a).flatMap fun c => if c.index < a.index then family run c else [])
      = (childrenOf run a).flatMap (family run) :=
    List.flatMap_congr fun c hc => if_pos (h.index_lt hc)
  rw [family, hbelow]

/-- What holds of a node as soon as it holds of the nodes it was given holds of every node. -/
theorem BuiltBefore.induction (h : BuiltBefore run) {P : NodeId → Prop}
    (step : ∀ a, (∀ b ∈ childrenOf run a, P b) → P a) (a : NodeId) : P a :=
  step a fun b hb =>
    have := h.index_lt hb
    h.induction step b
termination_by a.index

theorem mem_family_iff (h : BuiltBefore run) :
    q ∈ family run a ↔ ReflTransGen (ParentOf run) a q := by
  induction a using h.induction with
  | step a ih =>
    rw [family_eq h, List.mem_cons, List.mem_flatMap, ReflTransGen.cases_head_iff]
    apply or_congr eq_comm
    constructor
    · rintro ⟨c, hc, hq⟩
      exact ⟨c, hc, (ih c hc).mp hq⟩
    · rintro ⟨c, hc, hq⟩
      exact ⟨c, hc, (ih c hc).mpr hq⟩

theorem BuiltBefore.index_le (h : BuiltBefore run) (hab : ReflTransGen (ParentOf run) a b) :
    b.index ≤ a.index := by
  induction hab with
  | refl => exact Nat.le_refl _
  | tail _ hbc ih => exact Nat.le_trans (Nat.le_of_lt (h.index_lt hbc)) ih

end Descent

/-! ## 2. Families with one owner for each member -/

namespace OwnedOnce

variable {run : List (Making α)} {m : Making α} {a b c c' q : NodeId} {k : Nat}

theorem parent_unique (h : OwnedOnce run) (ha : ParentOf run a c) (hb : ParentOf run b c) : a = b := by
  obtain ⟨m, hm, hc⟩ := exists_of_mem_childrenOf ha
  obtain ⟨m', hm', hc'⟩ := exists_of_mem_childrenOf hb
  have hindex := h.owner_unique hm hm' hc hc'
  cases a
  cases b
  cases hindex
  rfl

-- Whoever descends from a sibling descends from the parent, which was made later.
theorem not_descendant_of_sibling (h : OwnedOnce run) (hc : ParentOf run a c)
    (hc' : ParentOf run a c') (hne : c ≠ c') : ¬ ReflTransGen (ParentOf run) c c' := by
  intro hpath
  rcases ReflTransGen.cases_tail hpath with hsame | ⟨d, hcd, hd⟩
  · exact hne hsame.symm
  · have hle := h.builtBefore.index_le hcd
    have hlt := h.builtBefore.index_lt hc
    rw [h.parent_unique hd hc'] at hle
    omega

theorem families_disjoint (h : OwnedOnce run) (hc : ParentOf run a c) (hc' : ParentOf run a c')
    (hne : c ≠ c') : List.Disjoint (family run c) (family run c') := by
  intro q hq hq'
  -- both are ancestors of one node, so one of them is an ancestor of the other
  rw [mem_family_iff h.builtBefore, ← reflTransGen_swap] at hq hq'
  have hunique : Relator.RightUnique (Function.swap (ParentOf run)) :=
    fun _ _ _ hx hy => h.parent_unique hx hy
  rcases ReflTransGen.total_of_right_unique hunique hq hq' with hpath | hpath
  · rw [reflTransGen_swap] at hpath
    exact h.not_descendant_of_sibling hc' hc hne.symm hpath
  · rw [reflTransGen_swap] at hpath
    exact h.not_descendant_of_sibling hc hc' hne hpath

theorem nodup_childrenOf (h : OwnedOnce run) (a : NodeId) : (childrenOf run a).Nodup := by
  cases hm : run[a.index]? with
  | none =>
    rw [childrenOf, hm]
    exact List.nodup_nil
  | some m =>
    rw [childrenOf_eq hm]
    exact h.children_nodup (List.mem_of_getElem? hm)

theorem nodup_family (h : OwnedOnce run) (a : NodeId) : (family run a).Nodup := by
  induction a using h.builtBefore.induction with
  | step a ih =>
    rw [family_eq h.builtBefore, List.nodup_cons, List.nodup_flatMap]
    refine ⟨?_, ih, ?_⟩
    · intro ha
      obtain ⟨c, hc, hac⟩ := List.mem_flatMap.mp ha
      have hle := h.builtBefore.index_le ((mem_family_iff h.builtBefore).mp hac)
      have hlt := h.builtBefore.index_lt hc
      omega
    · apply (h.nodup_childrenOf a).pairwise_of_forall_ne
      exact fun c hc c' hc' hne => h.families_disjoint hc hc' hne

end OwnedOnce

/-! ## 3. The tree of a family -/

/-- What a node was made to carry. -/
def carried (run : List (Making α)) (a : NodeId) : Option α :=
  run[a.index]?.map Making.data

namespace OwnedOnce

variable {run : List (Making α)} {m : Making α} {a c : NodeId} {k : Nat}

theorem entry_eq (h : OwnedOnce run) {entry : Entry α}
    (hget : (Store.ofRun run).get? a = some entry) :
    ∃ m next, run[a.index]? = some m ∧ entry = ⟨.linked m.data m.children.head?, .set next⟩ := by
  obtain ⟨m, hm, -, -⟩ := Store.exists_call_of_get? hget
  obtain ⟨next, hget'⟩ := h.get? hm
  exact ⟨m, next, hm, Option.some.inj (hget.symm.trans hget')⟩

theorem unfolds_cases (h : OwnedOnce run) {n : Node α}
    (hn : (Store.ofRun run).Unfolds (some a) (some n)) :
    ∃ m below after, run[a.index]? = some m ∧ n = .linked m.data below after ∧
      (Store.ofRun run).Unfolds m.children.head? below := by
  cases hn with
  | linked hget hfirst hnext =>
    obtain ⟨m, next, hm, hentry⟩ := h.entry_eq hget
    cases hentry
    exact ⟨m, _, _, hm, rfl, hfirst⟩
  | other hget hshape =>
    obtain ⟨m, next, hm, rfl⟩ := h.entry_eq hget
    exact absurd rfl hshape

/-- The chain that begins at one of the children holds the trees of this child and of all after it. -/
theorem forall₂_chain (h : OwnedOnce run) (hm : run[k]? = some m) {i : Nat} {t : Option (Node α)}
    (ht : (Store.ofRun run).Unfolds m.children[i]? t) :
    List.Forall₂ (fun c n => (Store.ofRun run).Unfolds (some c) (some n)) (m.children.drop i)
      (Node.chain t) := by
  generalize hlink : m.children[i]? = link at ht
  induction ht generalizing i with
  | none =>
    rw [List.drop_eq_nil_of_le (List.getElem?_eq_none_iff.mp hlink), Node.chain]
    exact .nil
  | linked hget hfirst hnext _ ihnext =>
    obtain ⟨hlt, hc⟩ := List.getElem?_eq_some_iff.mp hlink
    have hplace := h.next?_child hm hlink
    rw [Store.next?, hget] at hplace
    rw [List.drop_eq_getElem_cons hlt, hc, Node.chain]
    exact .cons (.linked hget hfirst hnext) (ihnext hplace.symm)
  | other hget hshape =>
    obtain ⟨m', next, hm', rfl⟩ := h.entry_eq hget
    exact absurd rfl hshape

theorem forall₂_children (h : OwnedOnce run) (hm : run[k]? = some m) {below : Option (Node α)}
    (hbelow : (Store.ofRun run).Unfolds m.children.head? below) :
    List.Forall₂ (fun c n => (Store.ofRun run).Unfolds (some c) (some n)) m.children
      (Node.chain below) := by
  rw [List.head?_eq_getElem?] at hbelow
  exact h.forall₂_chain hm hbelow

theorem uniform_of_unfolds (h : OwnedOnce run) {link : Option NodeId} {t : Option (Node α)}
    (ht : (Store.ofRun run).Unfolds link t) : ∀ n ∈ Node.chain t, n.Uniform .linked := by
  induction ht with
  | none =>
    intro n hn
    rw [Node.chain] at hn
    cases hn
  | linked hget hfirst hnext ihfirst ihnext =>
    intro n hn
    rw [Node.chain] at hn
    rcases List.mem_cons.mp hn with rfl | hn
    · exact Node.uniform_iff.mpr ⟨rfl, ihfirst⟩
    · exact ihnext n hn
  | other hget hshape =>
    obtain ⟨m, next, hm, rfl⟩ := h.entry_eq hget
    exact absurd rfl hshape

/-- Whether the nodes of a tree carry what the members of a family carry, one by one. -/
def Lists (run : List (Making α)) (a : NodeId) (n : Node α) : Prop :=
  n.nodes.map (fun n => some n.data) = (family run a).map (carried run)

theorem flatMap_lists {ids : List NodeId} {nodes : List (Node α)}
    (h : List.Forall₂ (fun c n => (Store.ofRun run).Unfolds (some c) (some n)) ids nodes)
    (hlists : ∀ c ∈ ids, ∀ n, (Store.ofRun run).Unfolds (some c) (some n) → Lists run c n) :
    (nodes.flatMap Node.nodes).map (fun n => some n.data)
      = (ids.flatMap (family run)).map (carried run) := by
  induction h with
  | nil => rfl
  | @cons c n ids nodes hn _ ih =>
    have hfirst : Lists run c n := hlists c List.mem_cons_self n hn
    have hrest := ih fun d hd => hlists d (List.mem_cons_of_mem c hd)
    rw [List.flatMap_cons, List.flatMap_cons, List.map_append, List.map_append, hfirst, hrest]

/-- What is below a node is listed in its family, whatever comes after the node. -/
theorem lists_family (h : OwnedOnce run) (a : NodeId) :
    ∀ (m : Making α) (below after : Option (Node α)), run[a.index]? = some m →
      (Store.ofRun run).Unfolds m.children.head? below →
        Lists run a (.linked m.data below after) := by
  induction a using h.builtBefore.induction with
  | step a ih =>
    intro m below after hm hbelow
    rw [childrenOf_eq hm] at ih
    have hoffspring := flatMap_lists (h.forall₂_children hm hbelow) (by
      intro c hc n hn
      obtain ⟨m', below', after', hm', rfl, hbelow'⟩ := h.unfolds_cases hn
      exact ih c hc m' below' after' hm' hbelow')
    have hcarried : carried run a = some m.data := by
      rw [carried, hm]
      rfl
    rw [Lists, Node.nodes_eq, family_eq h.builtBefore, childrenOf_eq hm, List.map_cons,
      List.map_cons, Node.offspring, hoffspring, hcarried]
    rfl

end OwnedOnce

/-! ## 4. Walks -/

-- Sibling pre-order visits the nodes in the order in which they are listed.
theorem Node.visited_siblingScript {n : Node α} (h : n.Uniform .linked) :
    n.siblingScript.visited = n.nodes := by
  induction n using Node.induction_offspring with
  | step n ih =>
    obtain ⟨hshape, hbelow⟩ := Node.uniform_iff.mp h
    have hoffspring : ∀ nodes : List (Node α), (∀ c ∈ nodes, c ∈ n.offspring) →
        (Script.sequence (nodes.map Node.siblingScript)).visited = nodes.flatMap Node.nodes := by
      intro nodes hnodes
      induction nodes with
      | nil => rfl
      | cons c rest ihrest =>
        have hc : c ∈ n.offspring := hnodes c List.mem_cons_self
        rw [List.map_cons, Script.sequence_cons,
          Script.visited_andThen (Node.siblingScript_covers (hbelow c hc)).1,
          ih c hc (hbelow c hc), List.flatMap_cons,
          ihrest fun d hd => hnodes d (List.mem_cons_of_mem c hd)]
    have hcovers := Script.covers_sequence Node.siblingScript Node.nodes n.offspring
      fun c hc => Node.siblingScript_covers (hbelow c hc)
    rw [Node.siblingScript_of_linked hshape, Script.sequence_cons, Script.sequence_cons,
      Script.sequence_singleton, Script.visited_andThen rfl, Script.visited_andThen hcovers.1,
      hoffspring n.offspring fun _ hc => hc, Node.nodes_eq]
    exact congrArg (n :: ·) (List.append_nil _)

/-! ## 5. Nodes with one owner -/

/-- Two nodes that were given to one parent. -/
def Siblings (run : List (Making α)) (a b : NodeId) : Prop :=
  a ≠ b ∧ ∃ m ∈ run, a ∈ m.children ∧ b ∈ m.children

/-- What a node says of itself, which is what it was made with. Another one follows it just if it was
given away with another one after it. -/
structure Describes (run : List (Making α)) (p : NodeId) (m : Making α) (n : Node α) : Prop where
  shape_eq : n.shape = .linked
  data_eq : n.data = m.data
  isLeaf_iff : n.isLeaf = true ↔ m.children = []
  isLastChild : ∃ last, n.isLastChild = .ok last ∧
    (last = false ↔ ∃ m' ∈ run, ∃ b, Follows m'.children p b)

namespace OwnedOnce

variable {run : List (Making α)} {m : Making α} {k : Nat}

theorem not_mem_family_of_siblings (h : OwnedOnce run) {a b : NodeId} (hab : Siblings run a b) :
    b ∉ family run a := by
  obtain ⟨hne, m, hm, ha, hb⟩ := hab
  obtain ⟨j, hj⟩ := List.getElem?_of_mem hm
  have hchildren : childrenOf run ⟨j⟩ = m.children := childrenOf_eq hj
  rw [mem_family_iff h.builtBefore]
  exact h.not_descendant_of_sibling (show a ∈ childrenOf run ⟨j⟩ by rwa [hchildren])
    (show b ∈ childrenOf run ⟨j⟩ by rwa [hchildren]) hne

theorem isSome_stubAt (h : OwnedOnce run) {link : Option NodeId} (hlink : ∀ c ∈ link, c ∈ given run) :
    ((Store.ofRun run).stubAt link).isSome = link.isSome := by
  cases link with
  | none => rfl
  | some c =>
    obtain ⟨m, hm⟩ := h.exists_call (hlink c rfl)
    obtain ⟨next, hget⟩ := h.get? hm
    show (((Store.ofRun run).get? c).map _).isSome = true
    rw [hget]
    rfl

theorem describes (h : OwnedOnce run) {first after : Option (Node α)}
    (hfirst : first.isSome = m.children.head?.isSome)
    (hafter : after.isSome = ((Store.ofRun run).next? ⟨k⟩).isSome) :
    Describes run ⟨k⟩ m (.linked m.data first after) where
  shape_eq := rfl
  data_eq := rfl
  isLeaf_iff := by
    show first.isNone = true ↔ _
    rw [← Option.not_isSome, hfirst, Option.not_isSome, Option.isNone_iff_eq_none,
      List.head?_eq_none_iff]
  isLastChild := by
    refine ⟨after.isNone, rfl, ?_⟩
    rw [← h.next?_isSome_iff, ← hafter]
    cases after <;> simp

theorem next?_eq {next : Option NodeId} {cell : Cell α}
    (hget : (Store.ofRun run).get? ⟨k⟩ = some ⟨cell, .set next⟩) :
    (Store.ofRun run).next? ⟨k⟩ = next := by
  rw [Store.next?, hget]
  rfl

/-- A glimpse of a node and the tree below it both say of the node what it was made with, and below it
is the tree that its children unfold to. -/
theorem exists_views (h : OwnedOnce run) (hm : run[k]? = some m) :
    ∃ glimpse below after, (Store.ofRun run).glimpse? ⟨k⟩ = some glimpse ∧
      Describes run ⟨k⟩ m glimpse ∧
      (Store.ofRun run).node? ⟨k⟩ = some (.linked m.data below after) ∧
      Describes run ⟨k⟩ m (.linked m.data below after) ∧
      (Store.ofRun run).Unfolds m.children.head? below := by
  obtain ⟨next, hget⟩ := h.get? hm
  obtain ⟨below, hbelow, hnode⟩ :=
    Store.exists_below h.builtBefore (Store.onceBehind_of_nodup h.nodup ⟨k⟩) hget
  have hnext : ((Store.ofRun run).stubAt next).isSome = ((Store.ofRun run).next? ⟨k⟩).isSome := by
    rw [next?_eq hget]
    apply h.isSome_stubAt
    exact fun c hc => (Store.leads_of_mem_next hget hc).mem_given
  have hfirst : ((Store.ofRun run).stubAt m.children.head?).isSome = m.children.head?.isSome := by
    apply h.isSome_stubAt
    exact fun c hc => mem_given_iff.mpr ⟨m, List.mem_of_getElem? hm, List.mem_of_mem_head? hc⟩
  refine ⟨_, below, _, ?_, h.describes hfirst hnext, hnode, h.describes hbelow.isSome_eq hnext,
    hbelow⟩
  rw [Store.glimpse?, hget]
  rfl

/-- Sibling pre-order ends without an error of its own, and visits a node's family, one by one. -/
theorem told_family (h : OwnedOnce run) (hm : run[k]? = some m) :
    (Strategy.siblingPreOrder.told ((Store.ofRun run).node? ⟨k⟩)).2 = none ∧
      ((Strategy.siblingPreOrder.told ((Store.ofRun run).node? ⟨k⟩)).1.filterMap
          Event.subject?).map (fun n => some n.data)
        = (family run ⟨k⟩).map (carried run) := by
  obtain ⟨-, below, after, -, -, hnode, -, hbelow⟩ := h.exists_views hm
  have huniform : (Node.linked m.data below after).Uniform .linked :=
    Node.uniform_iff.mpr ⟨rfl, h.uniform_of_unfolds hbelow⟩
  rw [hnode, Strategy.told_eq_script]
  refine ⟨(Node.siblingScript_covers huniform).1, ?_⟩
  show (Node.siblingScript _).visited.map _ = _
  rw [Node.visited_siblingScript huniform]
  exact h.lists_family ⟨k⟩ m below after hm hbelow

/-- **Chains of siblings are faithful.** Where linked nodes are made of linked nodes that were made
before, and none is given away twice, the cursor of a node that was made with some children finds just
these, in order and then no more, also if other nodes are made in the meantime. The node says that it
is a leaf just if it has no children, and that it is not the last child just if it was given away with
another one after it. Sibling pre-order visits the node and its descendants, each of them once, and
none of its siblings; the visits are told apart by what the nodes carry, which may be anything. -/
theorem chain_is_faithful {run : List (Making α)} (h : OwnedOnce run) {k : Nat} {m : Making α}
    (hm : run[k]? = some m) :
    (∀ moments : List (Moment α), OwnedOnce (run ++ moments.filterMap Moment.making?) →
      (Store.ofRun run).answers (.before ⟨k⟩) moments
        = (List.range (moments.countP Moment.isAsk)).map fun i => .ok m.children[i]?) ∧
      (Store.ofRun run).chainedChildren ⟨k⟩ = .ok m.children ∧
      (∃ n, (Store.ofRun run).glimpse? ⟨k⟩ = some n ∧ Describes run ⟨k⟩ m n) ∧
      (∃ n, (Store.ofRun run).node? ⟨k⟩ = some n ∧ Describes run ⟨k⟩ m n) ∧
      ∃ ids : List NodeId, ids.Nodup ∧
        (∀ q, q ∈ ids ↔ ReflTransGen (ParentOf run) ⟨k⟩ q) ∧
        (∀ q, Siblings run ⟨k⟩ q → q ∉ ids) ∧
        (Strategy.siblingPreOrder.told ((Store.ofRun run).node? ⟨k⟩)).2 = none ∧
        ((Strategy.siblingPreOrder.told ((Store.ofRun run).node? ⟨k⟩)).1.filterMap
            Event.subject?).map (fun n => some n.data)
          = ids.map (carried run) := by
  obtain ⟨glimpse, below, after, hglimpse, hdescribes, hnode, hdescribes', -⟩ := h.exists_views hm
  refine ⟨?_, h.chainedChildren_eq hm, ⟨glimpse, hglimpse, hdescribes⟩, ⟨_, hnode, hdescribes'⟩,
    family run ⟨k⟩, h.nodup_family ⟨k⟩, fun q => mem_family_iff h.builtBefore,
    fun q hq => h.not_mem_family_of_siblings hq, h.told_family hm⟩
  intro moments hmoments
  rw [List.range_eq_range']
  exact hmoments.answers_atPlace hm 0

/-- A parent of two children, and a node without children. -/
def twins : List (Making Nat) :=
  [.linked 10 [], .linked 11 [], .linked 12 [⟨0⟩, ⟨1⟩], .linked 13 []]

/-- A call that gives the parent of two children away, with the node without children after it. -/
def adopting : Making Nat :=
  .linked 14 [⟨2⟩, ⟨3⟩]

theorem twins_found_while_parent_given_away :
    OwnedOnce (twins ++ [adopting]) ∧ twins[2]? = some (.linked 12 [⟨0⟩, ⟨1⟩]) ∧
      (Store.ofRun twins).answers (.before ⟨2⟩) [.ask, .make adopting, .ask, .ask]
        = [.ok (some ⟨0⟩), .ok (some ⟨1⟩), .ok none] ∧
      (Strategy.siblingPreOrder.told ((Store.ofRun (twins ++ [adopting])).node? ⟨2⟩)).2 = none ∧
      ∃ ids : List NodeId, ids.Nodup ∧ ⟨3⟩ ∉ ids ∧
        ((Strategy.siblingPreOrder.told ((Store.ofRun (twins ++ [adopting])).node? ⟨2⟩)).1.filterMap
            Event.subject?).map (fun n => some n.data) = ids.map (carried (twins ++ [adopting])) := by
  have howned : OwnedOnce (twins ++ [adopting]) := ⟨by decide, by decide, by decide⟩
  obtain ⟨hanswers, -⟩ := chain_is_faithful howned.of_append (k := 2) rfl
  obtain ⟨-, -, -, -, ids, hnodup, -, hsiblings, hfault, hvisited⟩ :=
    chain_is_faithful howned (k := 2) rfl
  have hsibling : Siblings (twins ++ [adopting]) ⟨2⟩ ⟨3⟩ :=
    ⟨by decide, adopting, by simp, by simp [adopting, Making.children],
      by simp [adopting, Making.children]⟩
  exact ⟨howned, rfl, hanswers [.ask, .make adopting, .ask, .ask] howned, hfault, ids, hnodup,
    hsiblings ⟨3⟩ hsibling, hvisited⟩

end OwnedOnce

end TreeTraversal
