import TreeTraversal.Proofs.Plan.Listing
import TreeTraversal.Proofs.SearchTree.OrderedSet
import TreeTraversal.Proofs.SearchTree.Serialization
import TreeTraversal.Proofs.Walk.Stack

/-!
# Search trees as trees of nodes

A search tree has the form of a tree of binary nodes. Its own two listings, each a loop over what it
keeps for later, say what the walks of that tree say: the one in pre-order what both walks in pre-order
visit, and the ascending one what in-order visits. To print it is to write the latter line by line.
-/

namespace TreeTraversal

namespace KeyTree

variable {κ : Type}

/-! ## 1. The tree of nodes -/

/-- The tree of binary nodes that has a node for each fork. -/
def toNode? : KeyTree κ → Option (Node κ)
  | empty => none
  | fork l k r => some (.binary k l.toNode? r.toNode?)

theorem slotNodesOf_fork (l : KeyTree κ) (k : κ) (r : KeyTree κ) :
    Node.slotNodesOf (fork l k r).toNode? =
      .binary k l.toNode? r.toNode? ::
        (Node.slotNodesOf l.toNode? ++ Node.slotNodesOf r.toNode?) := by
  rw [toNode?, Node.slotNodesOf, Node.slotNodes_eq]
  cases l.toNode? <;> cases r.toNode? <;>
    simp [Node.children, Node.slots, Node.slotNodesOf]

theorem binary_toNode? (t : KeyTree κ) : ∀ n ∈ Node.slotNodesOf t.toNode?, n.shape = .binary := by
  induction t with
  | empty => exact nofun
  | fork l k r ihl ihr =>
    rw [slotNodesOf_fork, List.forall_mem_cons, List.forall_mem_append]
    exact ⟨rfl, ihl, ihr⟩

theorem data_slotNodesOf (t : KeyTree κ) :
    (Node.slotNodesOf t.toNode?).map Node.data = t.rootFirst := by
  induction t with
  | empty => rfl
  | fork l k r ihl ihr =>
    rw [slotNodesOf_fork, List.map_cons, List.map_append, ihl, ihr]
    rfl

-- The root is binary, if there is one, so only a strategy for linked trees does not suit it.
theorem rootIssues_toNode? {s : Strategy} (h : s.needsLinked = false) (t : KeyTree κ) :
    Plan.rootIssues s t.toNode? = [] := by
  cases t with
  | empty => rfl
  | fork l k r =>
    rw [toNode?, Plan.rootIssues, Plan.shapeIssues, h]
    simp [Node.shape]

/-! ## 2. Its walks -/

theorem preOrder_yields (t : KeyTree κ) :
    (Strategy.preOrder.scriptOf t.toNode?).Yields t.rootFirst := by
  constructor
  · cases t <;> rfl
  · rw [Node.visited_scriptOf_preOrder, data_slotNodesOf]

theorem iterativePreOrder_yields (t : KeyTree κ) :
    (Strategy.iterativePreOrder.scriptOf t.toNode?).Yields t.rootFirst := by
  rw [Node.scriptOf_iterativePreOrder, Node.sequence_rightRead_of_binary t.binary_toNode?]
  refine ⟨rfl, ?_⟩
  rw [Node.visited_map_visit, data_slotNodesOf]

-- Each side of a fork is listed inside a level of its own, and the key between the two.
theorem inOrderSlot_yields (t : KeyTree κ) :
    (Node.inOrderSlotScript t.toNode?).Yields t.keys := by
  induction t with
  | empty => exact ⟨rfl, rfl⟩
  | fork l k r ihl ihr =>
    have henter : (⟨[.enter], none⟩ : Script κ).Yields [] := ⟨rfl, rfl⟩
    have hfork : (⟨[.leave, .visit (.binary k l.toNode? r.toNode?), .enter], none⟩ : Script κ).Yields
        [k] := ⟨rfl, rfl⟩
    have hleave : (⟨[.leave], none⟩ : Script κ).Yields [] := ⟨rfl, rfl⟩
    have hall := henter.andThen (ihl.andThen (hfork.andThen (ihr.andThen hleave)))
    rw [List.append_nil, List.nil_append] at hall
    rw [toNode?, Node.inOrderSlotScript, Node.inOrderScript, Script.sequence_cons,
      Script.sequence_cons, Script.sequence_cons, Script.sequence_cons, Script.sequence_singleton]
    exact hall

theorem inOrder_yields (t : KeyTree κ) : (Strategy.inOrder.scriptOf t.toNode?).Yields t.keys := by
  have hslot : Strategy.inOrder.scriptOf t.toNode? = Node.inOrderSlotScript t.toNode? := by
    cases t <;> rfl
  rw [hslot]
  exact t.inOrderSlot_yields

end KeyTree

namespace SearchTree

/-! ## 3. The tree's own listings -/

theorem contents_foldl_writeLine (keys : List Value) (sink : Sink) :
    (keys.foldl (fun sink key => sink.writeLine key.text) sink).contents
      = sink.contents ++ Plain.listing (.str "\n") keys := by
  induction keys generalizing sink with
  | nil => rw [List.foldl_nil, Plain.listing_nil, String.append_empty]
  | cons key rest ih =>
    have hend : (Value.str "\n").text = "\n" := rfl
    rw [List.foldl_cons, ih, Sink.contents_writeLine, Plain.listing_cons, hend]
    simp only [String.append_assoc]

theorem contents_print (t : SearchTree Value) (sink : Sink) :
    (t.print sink).contents = sink.contents ++ Plain.listing (.str "\n") t.toAscending :=
  contents_foldl_writeLine t.toAscending sink

/-- **The loops of search trees agree with the walks.** Take the tree of binary nodes that has the form
and the keys of a search tree. To collect its data in pre-order, by either walk, gives the pre-order
listing of the search tree, and to collect it in-order gives the ascending one. What is printed of the
search tree is what is rendered of the tree of nodes in-order, with the end of a line for a
separator. -/
theorem listings_eq_walks (t : SearchTree Value) :
    let root := t.root.toNode?
    (collect root (.str "pre")).outcome = .ok t.toPreorder ∧
    (collect root (.str "iterative_pre")).outcome = .ok t.toPreorder ∧
    (collect root (.str "in")).outcome = .ok t.toAscending ∧
    ∃ text, (renderFlat root (.str "in") (.str "\n")).outcome = .ok text ∧
      ∀ sink, (t.print sink).contents = sink.contents ++ text := by
  intro root
  have hpreorder : t.toPreorder = t.root.rootFirst := t.root.preorder_eq_rootFirst
  have hinorder := t.root.inOrder_yields
  rw [← toAscending_eq_keys] at hinorder
  refine ⟨?_, ?_, ?_, Plain.listing (.str "\n") t.toAscending, ?_, t.contents_print⟩
  · rw [hpreorder]
    exact collect_of_yields (Strategy.ofValue_key .preOrder) (t.root.rootIssues_toNode? rfl)
      t.root.preOrder_yields
  · rw [hpreorder]
    exact collect_of_yields (Strategy.ofValue_key .iterativePreOrder) (t.root.rootIssues_toNode? rfl)
      t.root.iterativePreOrder_yields
  · exact collect_of_yields (Strategy.ofValue_key .inOrder) (t.root.rootIssues_toNode? rfl) hinorder
  · exact renderFlat_of_yields (Strategy.ofValue_key .inOrder) (t.root.rootIssues_toNode? rfl) hinorder _

end SearchTree

end TreeTraversal
