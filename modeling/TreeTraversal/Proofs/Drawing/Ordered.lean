import TreeTraversal.Proofs.Drawing.Rendering
import TreeTraversal.Proofs.Walk.Seen

/-!
# Drawings of ordered trees

A drawing asks each node whether it is a last child, and nothing else but its text. Where the nodes
answer as they stand, the drawing is that of the ordered tree: the last one of some siblings has its own
branch, and an indent of its own for what is below it.
-/

namespace TreeTraversal

/-! ## 1. Drawings without nodes -/

namespace OrderedTree

/-- The lines for some siblings and all that is below them. -/
def linesUnder (g : GlyphTexts) (indent : String) : List (OrderedTree Value) → String
  | [] => ""
  | node data below :: rest =>
    indent ++ (if rest.isEmpty then g.last else g.branch) ++ data.text ++ "\n"
      ++ linesUnder g (indent ++ if rest.isEmpty then g.blank else g.pipe) below
      ++ linesUnder g indent rest
termination_by trees => sizeOf trees

/-- The drawing of a tree. -/
def drawing (g : GlyphTexts) : OrderedTree Value → String
  | node data below => data.text ++ "\n" ++ linesUnder g "" below

end OrderedTree

/-! ## 2. Nodes that answer as they stand -/

namespace Node

variable {α : Type} {n : Node α}

/-- Whether the last one of some nodes says that it is a last child, and the others that they are not. -/
def AnswerInRow (row : List (Node α)) : Prop :=
  ∀ (i : Nat) (m : Node α), row[i]? = some m → m.isLastChild = .ok (decide (i + 1 = row.length))

/-- Whether all nodes below a root say truly whether they are last children. -/
def AnswersTruly (root : Node α) : Prop :=
  ∀ n ∈ root.nodes, AnswerInRow n.offspring

theorem AnswersTruly.of_mem_offspring (h : n.AnswersTruly) {m : Node α} (hm : m ∈ n.offspring) :
    m.AnswersTruly :=
  fun k hk => h k (mem_nodes_of_mem_offspring hm hk)

theorem answerInRow_nil : AnswerInRow ([] : List (Node α)) :=
  fun _ _ h => nomatch h

theorem answerInRow_cons {m : Node α} {rest : List (Node α)} :
    AnswerInRow (m :: rest) ↔ m.isLastChild = .ok rest.isEmpty ∧ AnswerInRow rest := by
  constructor
  · intro h
    have hfirst := h 0 m rfl
    refine ⟨?_, fun i k hk => ?_⟩
    · rw [hfirst]
      cases rest <;> simp
    · have hnext := h (i + 1) k hk
      rw [hnext]
      simp
  · rintro ⟨hfirst, hrest⟩ i k hk
    cases i with
    | zero =>
      cases hk
      rw [hfirst]
      cases rest <;> simp
    | succ i =>
      rw [hrest i k hk]
      simp

-- A linked node looks at its own link, and the links are the chain.
theorem answerInRow_chain (start : Option (Node α)) (h : ∀ m ∈ chain start, m.shape = .linked) :
    AnswerInRow (chain start) := by
  induction start using chain.induct with
  | case1 =>
    rw [chain]
    exact answerInRow_nil
  | case2 d f s ih =>
    rw [chain] at h ⊢
    rw [answerInRow_cons]
    refine ⟨?_, ih fun m hm => h m (List.mem_cons_of_mem _ hm)⟩
    show Except.ok s.isNone = Except.ok (chain s).isEmpty
    rcases s with _ | (_ | _ | _) <;> simp [chain]
  | case3 d l r =>
    rw [chain] at h
    cases h _ List.mem_cons_self
  | case4 d isLast slots =>
    rw [chain] at h
    cases h _ List.mem_cons_self

/-- Linked nodes always answer truly. -/
theorem answersTruly_of_linked (h : n.Uniform .linked) : n.AnswersTruly := by
  intro m hm
  have hshape := h m hm
  cases m with
  | binary d l r => cases hshape
  | wide d isLast slots => cases hshape
  | linked d f s =>
    apply answerInRow_chain
    intro k hk
    -- what is in the chain of a node of the tree is in the tree
    have hmem : ∀ root : Node α, Node.linked d f s ∈ root.nodes → k ∈ root.nodes := by
      intro root
      induction root using induction_offspring with
      | step root ih =>
        intro hroot
        rw [nodes_eq, List.mem_cons, List.mem_flatMap] at hroot
        rcases hroot with rfl | ⟨c, hc, hroot⟩
        · exact mem_nodes_of_mem_offspring hk k.self_mem_nodes
        · exact mem_nodes_of_mem_offspring hc (ih c hc hroot)
    exact h k (hmem n hm)

end Node

/-! ## 3. Drawings of nodes that answer as they stand -/

namespace GlyphTexts

open Strategy

variable {g : GlyphTexts}

theorem isLast_eq {α : Type} {m : Node α} {b : Bool} (h : m.isLastChild = .ok b) : m.isLast = b := by
  rw [Node.isLast, h]

/-- The lines below a node that stands somewhere under a root, and its own. -/
def linesFrom (g : GlyphTexts) (root : Node Value) (between : List (Node Value)) (n : Node Value) :
    String :=
  String.join ((n.placements (root :: between)).map g.line)

theorem linesFrom_eq (root : Node Value) (between : List (Node Value)) (n : Node Value) :
    g.linesFrom root between n
      = String.join (between.map g.indentUnder) ++ g.branchTo n ++ n.text ++ "\n"
        ++ String.join (n.offspring.map (g.linesFrom root (between ++ [n]))) := by
  rw [linesFrom, Node.placements_eq, List.map_cons, String.join_cons, List.map_flatMap, join_flatMap]
  rfl

/-- The lines of some siblings that answer truly are those of the ordered trees. The induction on the
root is for the trees below them; along the siblings the last one is found by what is left. -/
theorem join_linesFrom (root : Node Value) {indent : String} :
    ∀ (nodes between : List (Node Value)), Node.AnswerInRow nodes →
      (∀ m ∈ nodes, ∀ between : List (Node Value),
        String.join (m.offspring.map (g.linesFrom root between))
          = OrderedTree.linesUnder g (String.join (between.map g.indentUnder))
            (m.offspring.map siblingPreOrder.seen)) →
      String.join (between.map g.indentUnder) = indent →
      String.join (nodes.map (g.linesFrom root between))
        = OrderedTree.linesUnder g indent (nodes.map siblingPreOrder.seen) := by
  intro nodes between hrow hbelow hindent
  induction nodes with
  | nil =>
    rw [List.map_nil, List.map_nil, OrderedTree.linesUnder]
    exact String.join_nil
  | cons m rest ih =>
    obtain ⟨hlast, hrest⟩ := Node.answerInRow_cons.mp hrow
    have hm := hbelow m List.mem_cons_self (between ++ [m])
    have hothers := ih hrest fun k hk => hbelow k (List.mem_cons_of_mem m hk)
    have hpiece : String.join ((between ++ [m]).map g.indentUnder)
        = indent ++ (if rest.isEmpty then g.blank else g.pipe) := by
      rw [List.map_append, String.join_append, hindent, ← isLast_eq hlast]
      simp [indentUnder]
    have hempty : (rest.map siblingPreOrder.seen).isEmpty = rest.isEmpty := List.isEmpty_map
    rw [List.map_cons, List.map_cons, String.join_cons, linesFrom_eq, hothers, hm, hpiece, hindent,
      seen_eq, OrderedTree.linesUnder, siblingPreOrder_offspring, hempty, branchTo, isLast_eq hlast]
    rfl

theorem drawing_eq_ordered {root : Node Value} (h : root.AnswersTruly) :
    g.drawing root = (siblingPreOrder.seen root).drawing g := by
  have hbelow : ∀ m : Node Value, m.AnswersTruly → ∀ between : List (Node Value),
      String.join (m.offspring.map (g.linesFrom root between))
        = OrderedTree.linesUnder g (String.join (between.map g.indentUnder))
          (m.offspring.map siblingPreOrder.seen) := by
    intro m
    induction m using Node.induction_offspring with
    | step m ih =>
      intro hm between
      exact join_linesFrom root m.offspring between (hm m m.self_mem_nodes)
        (fun k hk => ih k hk (hm.of_mem_offspring hk)) rfl
  have hlines := hbelow root h []
  rw [drawing, Node.placements_eq, List.map_cons, String.join_cons, List.map_flatMap, join_flatMap,
    seen_eq, OrderedTree.drawing, siblingPreOrder_offspring]
  show _ ++ String.join (root.offspring.map (g.linesFrom root [])) = _
  rw [hlines, List.map_nil, String.join_nil]
  simp [line, lead, Node.text]

end GlyphTexts

end TreeTraversal
