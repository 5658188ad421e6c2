import TreeTraversal.Node.Blueprint
import TreeTraversal.Proofs.Node.Descendants
import TreeTraversal.Proofs.Walk.Seen

/-!
# Ordered trees made of linked nodes

An ordered tree is made of linked nodes from the bottom up: a node is given the nodes that were made of
the trees below it. In the store that is one first child and links between siblings, which lead on from
node to node. Where every node has one owner, what sibling pre-order sees there is the ordered tree
again, whatever else is in the store.
-/

namespace TreeTraversal

variable {α : Type}

/-! ## 1. Nodes made of ordered trees -/

/-- Whether a node was made, by the calls of a run, of data and of nodes that were made of the trees
below. The calls may come in any order in which nodes are made before they are given away. -/
inductive Assembled (run : List (Making α)) : OrderedTree α → NodeId → Prop
  | node {data : α} {below : List (OrderedTree α)} {ids : List NodeId} {a : NodeId}
      (hm : run[a.index]? = some (.linked data ids))
      (hbelow : List.Forall₂ (Assembled run) below ids) : Assembled run (.node data below) a

theorem Assembled.of_append {run : List (Making α)} (more : List (Making α)) {t : OrderedTree α}
    {a : NodeId} (h : Assembled run t a) : Assembled (run ++ more) t a := by
  induction t using OrderedTree.induction_below generalizing a with
  | step data below ih =>
    cases h with
    | node hm hbelow =>
      have hlt := (List.getElem?_eq_some_iff.mp hm).1
      have hmade := (List.forall₂_and_left _ _).mpr ⟨ih, hbelow⟩
      exact .node (by rwa [List.getElem?_append_left hlt]) (hmade.imp fun _ _ h => h.1 h.2)

namespace OwnedOnce

variable {run : List (Making α)}

/-- Below such a node sibling pre-order sees the trees that it was made of. The links to the siblings of
the node itself do not matter. -/
theorem seen_of_assembled (h : OwnedOnce run) {t : OrderedTree α} :
    ∀ {a : NodeId} {m : Making α} {below after : Option (Node α)}, Assembled run t a →
      run[a.index]? = some m → (Store.ofRun run).Unfolds m.children.head? below →
        Strategy.siblingPreOrder.seen (.linked m.data below after) = t := by
  induction t using OrderedTree.induction_below with
  | step data trees ih =>
    intro a m below after hassembled hm hunfolds
    cases hassembled with
    | @node _ _ ids _ hm' hbelow =>
      cases hm.symm.trans hm'
      have hchildren : List.Forall₂ (fun c n => (Store.ofRun run).Unfolds (some c) (some n)) ids
          (Node.chain below) := h.forall₂_children hm hunfolds
      have hseen : (Node.chain below).map Strategy.siblingPreOrder.seen = trees := by
        apply List.ext_getElem
        · rw [List.length_map, ← hchildren.length_eq, hbelow.length_eq]
        · intro i hi hi'
          rw [List.length_map] at hi
          have hid : i < ids.length := hbelow.length_eq ▸ hi'
          have hnode := hchildren.get hid hi
          obtain ⟨m', below', after', hm', hn, hunfolds'⟩ := h.unfolds_cases hnode
          rw [List.getElem_map]
          show Strategy.siblingPreOrder.seen ((Node.chain below).get ⟨i, hi⟩) = _
          rw [hn]
          exact ih _ (List.getElem_mem hi') (hbelow.get hi' hid) hm' hunfolds'
      rw [Strategy.seen_eq, Strategy.siblingPreOrder_offspring, Node.offspring, hseen]
      rfl

/-- Such a node is read as a tree of linked nodes in which sibling pre-order sees the ordered tree. -/
theorem exists_node_of_assembled (h : OwnedOnce run) {t : OrderedTree α} {a : NodeId}
    (ha : Assembled run t a) :
    ∃ n, (Store.ofRun run).node? a = some n ∧ n.Uniform .linked ∧
      Strategy.siblingPreOrder.seen n = t := by
  cases ha with
  | @node data trees ids _ hm hbelow =>
    obtain ⟨-, below, after, -, -, hnode, -, hunfolds⟩ := h.exists_views hm
    exact ⟨_, hnode, Node.uniform_iff.mpr ⟨rfl, h.uniform_of_unfolds hunfolds⟩,
      h.seen_of_assembled (.node hm hbelow) hm hunfolds⟩

end OwnedOnce

/-! ## 2. Building from the bottom up -/

/-- The blueprint by which a tree is built of linked nodes. -/
def OrderedTree.chained : OrderedTree α → Blueprint α
  | node data below => .linked data (below.attach.map fun ⟨t, _⟩ => chained t)
termination_by t => sizeOf t
decreasing_by exact sizeOf_lt_of_mem_below ‹_›

theorem OrderedTree.chained_node (data : α) (below : List (OrderedTree α)) :
    (node data below).chained = .linked data (below.map chained) := by
  rw [chained]
  simp

/-- What calls that were added to a run have made: nodes of these trees, which are new and were not given
away. No node that was there before has been given away by them. -/
structure Adds (run calls : List (Making α)) (trees : List (OrderedTree α)) (ids : List NodeId) :
    Prop where
  owned : OwnedOnce (run ++ calls)
  given_new : ∀ c ∈ given calls, run.length ≤ c.index
  assembled : List.Forall₂ (Assembled (run ++ calls)) trees ids
  nodup : ids.Nodup
  new : ∀ a ∈ ids, run.length ≤ a.index ∧ a.index < (run ++ calls).length
  free : ∀ a ∈ ids, a ∉ given (run ++ calls)

namespace Adds

variable {run calls more : List (Making α)} {trees trees' : List (OrderedTree α)}
  {ids ids' : List NodeId}

theorem nil (h : OwnedOnce run) : Adds run ([] : List (Making α)) [] [] where
  owned := by rwa [List.append_nil]
  given_new := nofun
  assembled := .nil
  nodup := List.nodup_nil
  new := nofun
  free := nofun

-- Calls that are added later make other nodes and leave those that were made before them alone.
theorem append (h : Adds run calls trees ids) (h' : Adds (run ++ calls) more trees' ids') :
    Adds run (calls ++ more) (trees ++ trees') (ids ++ ids') where
  owned := by
    rw [← List.append_assoc]
    exact h'.owned
  given_new := by
    intro c hc
    rw [given_append, List.mem_append] at hc
    rcases hc with hc | hc
    · have hle := h'.given_new c hc
      rw [List.length_append] at hle
      omega
    · exact h.given_new c hc
  assembled := by
    rw [← List.append_assoc]
    exact List.rel_append (h.assembled.imp fun _ _ ha => ha.of_append more) h'.assembled
  nodup := by
    refine List.nodup_append.mpr ⟨h.nodup, h'.nodup, ?_⟩
    rintro a ha b hb rfl
    have hlt := (h.new a ha).2
    have hle := (h'.new a hb).1
    omega
  new := by
    intro a ha
    rcases List.mem_append.mp ha with ha | ha
    · have hnew := h.new a ha
      simp only [List.length_append] at hnew ⊢
      omega
    · have hnew := h'.new a ha
      simp only [List.length_append] at hnew ⊢
      omega
  free := by
    intro a ha
    rw [← List.append_assoc, given_append, List.mem_append]
    rintro (hgiven | hgiven)
    · rcases List.mem_append.mp ha with ha | ha
      · have hlt := (h.new a ha).2
        have hle := h'.given_new a hgiven
        omega
      · exact h'.free a ha (by rw [given_append]; exact List.mem_append_left _ hgiven)
    · rcases List.mem_append.mp ha with ha | ha
      · exact h.free a ha hgiven
      · exact h'.free a ha (by rw [given_append]; exact List.mem_append_right _ hgiven)

/-- One more call gives all these nodes away, to a node that is new itself. -/
theorem node (h : Adds run calls trees ids) (data : α) :
    Adds run (calls ++ [.linked data ids]) [.node data trees] [⟨(run ++ calls).length⟩] := by
  have hlast : given [Making.linked data ids] = ids := by simp [given, Making.children]
  have howned : OwnedOnce (run ++ calls ++ [.linked data ids]) := by
    constructor
    · intro m hm
      rcases List.mem_append.mp hm with hm | hm
      · exact h.owned.linked m hm
      · rw [List.mem_singleton.mp hm]
        rfl
    · intro k m hm c hc
      by_cases hk : k < (run ++ calls).length
      · rw [List.getElem?_append_left hk] at hm
        exact h.owned.builtBefore k m hm c hc
      · rw [List.getElem?_append_right (by omega)] at hm
        rw [List.mem_singleton.mp (List.mem_of_getElem? hm)] at hc
        have hlt := (h.new c hc).2
        omega
    · rw [given_append, hlast]
      refine List.nodup_append.mpr ⟨h.nodup, h.owned.nodup, ?_⟩
      rintro a ha b hb rfl
      exact h.free a ha hb
  have hassembled : Assembled (run ++ calls ++ [.linked data ids]) (.node data trees)
      ⟨(run ++ calls).length⟩ :=
    .node List.getElem?_concat_length (h.assembled.imp fun _ _ ha => ha.of_append _)
  refine ⟨by rwa [← List.append_assoc], ?_, ?_, List.nodup_singleton _, ?_, ?_⟩
  · intro c hc
    rw [given_append, hlast, List.mem_append] at hc
    rcases hc with hc | hc
    · exact (h.new c hc).1
    · exact h.given_new c hc
  · rw [← List.append_assoc]
    exact .cons hassembled .nil
  · intro a ha
    rw [List.mem_singleton.mp ha]
    simp only [List.length_append, List.length_singleton]
    omega
  · intro a ha hgiven
    rw [List.mem_singleton.mp ha, ← List.append_assoc] at hgiven
    obtain ⟨m, hm, hc⟩ := mem_given_iff.mp hgiven
    obtain ⟨k, hk⟩ := List.getElem?_of_mem hm
    have hlt := howned.builtBefore k m hk _ hc
    have hle := (List.getElem?_eq_some_iff.mp hk).1
    rw [List.length_append, List.length_singleton] at hle
    have hindex : (run ++ calls).length < k := hlt
    omega

end Adds

theorem map_of_ok {ε σ β γ : Type} (f : β → γ) {x : EStateM ε σ β} {s s' : σ} {b : β}
    (h : x s = .ok b s') : (f <$> x) s = .ok (f b) s' := by
  show EStateM.map f x s = _
  rw [EStateM.map, h]

theorem buildAll_chained {run : List (Making α)} (h : OwnedOnce run) (trees : List (OrderedTree α))
    (built : List (Option NodeId))
    (htrees : ∀ t ∈ trees, ∀ run : List (Making α), OwnedOnce run → ∃ calls a,
      (t.chained.build : EStateM Error (Store α) (Option NodeId)) (Store.ofRun run)
        = .ok (some a) (Store.ofRun (run ++ calls)) ∧ Adds run calls [t] [a]) :
    ∃ calls ids,
      (Blueprint.buildAll built (trees.map OrderedTree.chained)
          : EStateM Error (Store α) (List (Option NodeId))) (Store.ofRun run)
        = .ok (built.reverse ++ ids.map some) (Store.ofRun (run ++ calls)) ∧
      Adds run calls trees ids := by
  induction trees generalizing run built with
  | nil =>
    refine ⟨[], [], ?_, .nil h⟩
    show EStateM.Result.ok built.reverse (Store.ofRun run)
      = .ok (built.reverse ++ []) (Store.ofRun (run ++ []))
    rw [List.append_nil, List.append_nil]
  | cons t rest ih =>
    obtain ⟨calls, a, hbuild, hadds⟩ := htrees t List.mem_cons_self run h
    obtain ⟨more, ids, hbuildAll, hmore⟩ := ih hadds.owned (some a :: built)
      fun u hu => htrees u (List.mem_cons_of_mem t hu)
    refine ⟨calls ++ more, a :: ids, ?_, hadds.append hmore⟩
    rw [List.map_cons, Blueprint.buildAll, bind_of_ok hbuild, hbuildAll, List.append_assoc,
      List.reverse_cons, List.append_assoc]
    rfl

/-- A tree that is built into a store whose nodes have one owner each is made of new nodes, and these
have one owner each too. -/
theorem build_chained (t : OrderedTree α) {run : List (Making α)} (h : OwnedOnce run) :
    ∃ calls a,
      (t.chained.build : EStateM Error (Store α) (Option NodeId)) (Store.ofRun run)
        = .ok (some a) (Store.ofRun (run ++ calls)) ∧
      Adds run calls [t] [a] := by
  induction t using OrderedTree.induction_below generalizing run with
  | step data below ih =>
    obtain ⟨calls, ids, hbuildAll, hadds⟩ := buildAll_chained h below []
      fun t ht run hrun => ih t ht hrun
    refine ⟨calls ++ [.linked data ids], ⟨(run ++ calls).length⟩, ?_, hadds.node data⟩
    have hlast := Store.build_eq_ok (ε := Error) (Store.ofRun (run ++ calls)) (.linked data ids)
    rw [Store.size_ofRun, ← Store.made_eq, ← Store.ofRun_append_singleton, List.append_assoc]
      at hlast
    rw [OrderedTree.chained_node, Blueprint.build, bind_of_ok hbuildAll]
    exact map_of_ok some hlast

end TreeTraversal
