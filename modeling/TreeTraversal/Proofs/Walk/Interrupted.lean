import TreeTraversal.Proofs.Node.Gap
import TreeTraversal.Proofs.Walk.Stack

/-!
# Walks that are interrupted

In-order, iterative pre-order and sibling pre-order come to all nodes of a tree of their shape, and
fail on every other tree. In-order and sibling pre-order fail at the first node of another shape in
pre-order. Up to there they call the hooks that they call on the tree in which a leaf of their shape
stands in the place of that node.
-/

namespace TreeTraversal

/-! ## 1. Hooks by their data -/

namespace Script

variable {α : Type}

/-- The hooks of a script as a collecting visitor keeps them, with nodes reduced to their data. -/
def heard (script : Script α) : List (Event α) :=
  script.calls.map (Event.map Node.data)

theorem heard_andThen {a : Script α} (h : a.fault = none) (b : Script α) :
    (a.andThen b).heard = a.heard ++ b.heard := by
  rw [andThen_of_none h]
  exact List.map_append

/-- The script of a whole comes, after some hooks, to the script of a part, and goes no further if that
has a fault. -/
structure ComesTo (before : List (Event α)) (part whole : Script α) : Prop where
  heard_begins : before ++ part.heard <+: whole.heard
  stops : part.fault ≠ none → whole.heard = before ++ part.heard ∧ whole.fault = part.fault

theorem ComesTo.refl (script : Script α) : ComesTo [] script script :=
  ⟨List.prefix_refl _, fun _ => ⟨rfl, rfl⟩⟩

variable {part middle : Script α} {before : List (Event α)}

-- Hooks that come before a script without a fault of their own only put off what it does.
theorem ComesTo.after (h : ComesTo before part middle) (first : Script α)
    (hfirst : first.fault = none) : ComesTo (first.heard ++ before) part (first.andThen middle) := by
  have hheard := heard_andThen hfirst middle
  constructor
  · rw [hheard, List.append_assoc]
    exact (List.prefix_append_right_inj first.heard).mpr h.heard_begins
  · intro hpart
    rcases h.stops hpart with ⟨hmiddle, hfault⟩
    rw [hheard, hmiddle, List.append_assoc, andThen_of_none hfirst]
    exact ⟨rfl, hfault⟩

theorem ComesTo.followedBy (h : ComesTo before part middle) (last : Script α) :
    ComesTo before part (middle.andThen last) := by
  cases hmiddle : middle.fault with
  | some e => rwa [andThen_of_fault hmiddle]
  | none =>
    constructor
    · rw [heard_andThen hmiddle]
      exact h.heard_begins.trans (List.prefix_append _ _)
    · intro hpart
      exact absurd ((h.stops hpart).2.symm.trans hmiddle) hpart

end Script

/-! ## 2. Scripts over a gap -/

namespace Node

variable {α : Type} {put : Node α → Node α}

theorem inOrderSlotScript_fault {slot : Option (Node α)}
    (h : ∀ n ∈ nodesOf slot, n.shape = .binary) : (inOrderSlotScript slot).fault = none := by
  cases slot with
  | none => rfl
  | some n => exact (inOrderScript_covers h).1

/-- The script of sibling pre-order for a chain of siblings. -/
def chainScript (start : Option (Node α)) : Script α :=
  .sequence ((chain start).map siblingScript)

theorem chainScript_fault {start : Option (Node α)} (h : ∀ n ∈ chainNodes start, n.shape = .linked) :
    (chainScript start).fault = none := by
  have hchain : ∀ n ∈ chain start, n.siblingScript.Covers n.nodes := fun n hn =>
    siblingScript_covers fun m hm => h m (List.mem_flatMap.mpr ⟨n, hn, hm⟩)
  exact (Script.covers_sequence siblingScript nodes (chain start) hchain).1

theorem siblingScript_linked (d : α) (f s : Option (Node α)) :
    (linked d f s).siblingScript = (⟨[.visit (linked d f s), .enter], none⟩ : Script α).andThen
      ((chainScript f).andThen ⟨[.leave], none⟩) := by
  rw [siblingScript_of_linked rfl, Script.sequence_cons, Script.sequence_cons,
    Script.sequence_singleton]
  rfl

theorem chainScript_linked (d : α) (f s : Option (Node α)) :
    chainScript (some (linked d f s)) = (linked d f s).siblingScript.andThen (chainScript s) := by
  unfold chainScript
  rw [chain, List.map_cons, Script.sequence_cons]

theorem chainScript_none : chainScript (none : Option (Node α)) = {} := by
  rw [chainScript, chain]
  rfl

theorem chainScript_of_not_linked {n : Node α} (h : n.shape ≠ .linked) :
    chainScript (some n) = n.siblingScript := by
  cases n with
  | linked d f s => exact absurd rfl h
  | binary d l r => rw [chainScript, chain, List.map_singleton, Script.sequence_singleton]
  | wide d isLast slots => rw [chainScript, chain, List.map_singleton, Script.sequence_singleton]

-- A chain begins with its first sibling.
theorem chainScript_comesTo (n : Node α) :
    Script.ComesTo [] n.siblingScript (chainScript (some n)) := by
  by_cases h : n.shape = .linked
  · cases n with
    | linked d f s =>
      rw [chainScript_linked]
      exact (Script.ComesTo.refl _).followedBy _
    | binary d l r => cases h
    | wide d isLast slots => cases h
  · rw [chainScript_of_not_linked h]
    exact .refl _

-- The way down adds the hooks of the left sides that it passes by, and those around them.
theorem BinaryGap.comesTo (h : BinaryGap put) :
    ∃ before, ∀ x, Script.ComesTo before x.inOrderScript (put x).inOrderScript := by
  induction h with
  | here => exact ⟨[], fun x => .refl _⟩
  | left d r _ ih =>
    rcases ih with ⟨before, hbefore⟩
    refine ⟨.enter :: before, fun x => ?_⟩
    rw [inOrderScript, Script.sequence_cons, Script.sequence_cons]
    exact ((hbefore x).followedBy _).after ⟨[.enter], none⟩ rfl
  | @right d l hl put _ ih =>
    rcases ih with ⟨before, hbefore⟩
    have hleft := inOrderSlotScript_fault hl
    refine ⟨.enter :: ((inOrderSlotScript l).heard ++ (.leave :: .visit d :: .enter :: before)),
      fun x => ?_⟩
    have hright := (hbefore x).followedBy (.sequence [⟨[.leave], none⟩])
    have hvisit := hright.after ⟨[.leave, .visit (binary d l (some (put x))), .enter], none⟩ rfl
    rw [inOrderScript, Script.sequence_cons, Script.sequence_cons, Script.sequence_cons,
      Script.sequence_cons]
    exact (hvisit.after _ hleft).after ⟨[.enter], none⟩ rfl

theorem ChainGap.comesTo (h : ChainGap put) :
    ∃ before, ∀ x, Script.ComesTo before x.siblingScript (chainScript (some (put x))) := by
  induction h with
  | here => exact ⟨[], chainScript_comesTo⟩
  | @child d s put _ ih =>
    rcases ih with ⟨before, hbefore⟩
    refine ⟨.visit d :: .enter :: before, fun x => ?_⟩
    have hlevel := (hbefore x).followedBy ⟨[.leave], none⟩
    rw [chainScript_linked, siblingScript_linked]
    exact (hlevel.after ⟨[.visit (linked d (some (put x)) s), .enter], none⟩ rfl).followedBy _
  | @sibling d f hf put _ ih =>
    rcases ih with ⟨before, hbefore⟩
    have hbelow := chainScript_fault hf
    refine ⟨.visit d :: .enter :: ((chainScript f).heard ++ (.leave :: before)), fun x => ?_⟩
    have hleave := (hbefore x).after ⟨[.leave], none⟩ rfl
    rw [chainScript_linked, siblingScript_linked, Script.andThen_assoc, Script.andThen_assoc]
    exact (hleave.after _ hbelow).after ⟨[.visit (linked d f (some (put x))), .enter], none⟩ rfl

theorem LinkedGap.comesTo (h : LinkedGap put) :
    ∃ before, ∀ x, Script.ComesTo before x.siblingScript (put x).siblingScript := by
  cases h with
  | here => exact ⟨[], fun x => .refl _⟩
  | @child d s put hchain =>
    rcases hchain.comesTo with ⟨before, hbefore⟩
    refine ⟨.visit d :: .enter :: before, fun x => ?_⟩
    have hlevel := (hbefore x).followedBy ⟨[.leave], none⟩
    rw [siblingScript_linked]
    exact hlevel.after ⟨[.visit (linked d (some (put x)) s), .enter], none⟩ rfl

theorem inOrderScript_of_not_binary {n : Node α} (h : n.shape ≠ .binary) :
    n.inOrderScript = ⟨[.enter], some (.missingLink n.shape .left)⟩ := by
  cases n with
  | binary d l r => exact absurd rfl h
  | linked d f s => rw [inOrderScript, shape]
  | wide d isLast slots => rw [inOrderScript, shape]

theorem mem_of_precede {shape : Shape} {n : Node α} {whole : List (Node α)}
    (h : Precede shape n.nodes whole) : n ∈ whole := by
  rcases h with ⟨before, after, rfl, -⟩
  apply List.mem_append_right
  exact List.mem_append_left after n.self_mem_nodes

-- Binary nodes hide nothing, so where slots lead to binary nodes only, they lead everywhere.
theorem nodesOf_binary_of_slotNodesOf {root : Option (Node α)}
    (h : ∀ n ∈ slotNodesOf root, n.shape = .binary) : ∀ n ∈ nodesOf root, n.shape = .binary := by
  have hhidden : (slotNodesOf root).flatMap hidden = [] := by
    rw [List.flatMap_eq_nil_iff]
    intro n hn
    rw [hidden, h n hn]
    rfl
  have hperm := nodesOf_perm_slotNodesOf root
  rw [hhidden, List.append_nil] at hperm
  exact fun n hn => h n (hperm.mem_iff.mp hn)

end Node

/-! ## 3. All or nothing -/

namespace Strategy

variable {α ε σ : Type} {root : Option (Node α)} {s : Strategy}

/-- The hooks of a walk as a collecting visitor keeps them. -/
def heard (s : Strategy) (root : Option (Node α)) : List (Event α) :=
  (s.told root).1.map (Event.map Node.data)

theorem heard_some (s : Strategy) (root : Node α) : s.heard (some root) = (s.script root).heard := by
  rw [heard, told_eq_script]
  rfl

/-- Whether a walk ends well just on trees of one shape, and then has come to every node once, and fails
on other trees because a node of another shape lacks a link. -/
structure AllOrNothing (s : Strategy) (shape : Shape) (link : Link) (root : Option (Node α)) :
    Prop where
  ends_well_iff : (s.told root).2 = none ↔ ∀ n ∈ Node.nodesOf root, n.shape = shape
  comes_to_all : (s.told root).2 = none → (s.nodesTold root).Perm (Node.nodesOf root)
  fails : ∀ e, (s.told root).2 = some e →
    ∃ other ∈ Node.nodesOf root, other.shape ≠ shape ∧ e = .missingLink other.shape link

theorem allOrNothing_of_script {shape : Shape} {link : Link}
    (hcovers : (∀ n ∈ Node.nodesOf root, n.shape = shape) →
      (s.scriptOf root).Covers (Node.nodesOf root))
    (hfails : (¬ ∀ n ∈ Node.nodesOf root, n.shape = shape) →
      ∃ other ∈ Node.nodesOf root, other.shape ≠ shape ∧
        (s.scriptOf root).fault = some (.missingLink other.shape link)) :
    AllOrNothing s shape link root := by
  have hfault : (s.told root).2 = (s.scriptOf root).fault := by rw [told_eq_script]
  by_cases huniform : ∀ n ∈ Node.nodesOf root, n.shape = shape
  · have hnone := (hcovers huniform).1
    refine ⟨iff_of_true (hfault.trans hnone) huniform, fun _ => ?_, ?_⟩
    · rw [nodesTold_eq]
      exact (hcovers huniform).2
    · intro e he
      rw [hfault, hnone] at he
      cases he
  · rcases hfails huniform with ⟨other, hmem, hother, hsome⟩
    have hne : (s.told root).2 ≠ none := by
      rw [hfault, hsome]
      nofun
    refine ⟨iff_of_false hne huniform, fun h => absurd h hne, ?_⟩
    intro e he
    rw [hfault, hsome] at he
    exact ⟨other, hmem, hother, (Option.some.inj he).symm⟩

theorem scriptOf_covers_of_binary (h : s.needsBinary = true)
    (huniform : ∀ n ∈ Node.nodesOf root, n.shape = .binary) :
    (s.scriptOf root).Covers (Node.nodesOf root) := by
  cases root with
  | none => exact ⟨rfl, .refl _⟩
  | some n => exact script_covers_of_binary h huniform

/-- In-order that fails on a tree, seen by the gap around the first node that is not binary. -/
theorem exists_inOrder_gap (h : ¬ ∀ n ∈ Node.nodesOf root, n.shape = .binary) :
    ∃ put other, Node.BinaryGap put ∧ root = some (put other) ∧ other.shape ≠ .binary ∧
      (inOrder.scriptOf root).fault = some (.missingLink other.shape .left) ∧
      Node.Precede .binary other.nodes (Node.nodesOf root) ∧
      ∃ before, inOrder.heard root = before ++ [.enter] ∧
        ∀ d, before ++ [.enter, .leave, .visit d, .enter, .leave]
          <+: inOrder.heard (some (put (.binary d none none))) := by
  cases root with
  | none => exact absurd nofun h
  | some n =>
    rcases Node.exists_binaryGap h with ⟨put, other, hgap, rfl, hother⟩
    rcases hgap.comesTo with ⟨before, hbefore⟩
    have hscript := Node.inOrderScript_of_not_binary hother
    have hstops := (hbefore other).stops (by rw [hscript]; nofun)
    rw [hscript] at hstops
    refine ⟨put, other, hgap, rfl, hother, hstops.2, hgap.precede other, before, ?_, ?_⟩
    · rw [heard_some]
      exact hstops.1
    · intro d
      rw [heard_some]
      exact (hbefore (.binary d none none)).heard_begins

/-- Sibling pre-order that fails on a tree, seen by the gap around the first node that is not linked. -/
theorem exists_siblingPreOrder_gap (h : ¬ ∀ n ∈ Node.nodesOf root, n.shape = .linked) :
    ∃ put other, Node.LinkedGap put ∧ root = some (put other) ∧ other.shape ≠ .linked ∧
      (siblingPreOrder.scriptOf root).fault = some (.missingLink other.shape .firstChild) ∧
      Node.Precede .linked other.nodes (Node.nodesOf root) ∧
      ∃ before, siblingPreOrder.heard root = before ++ [.visit other.data, .enter] ∧
        ∀ d s, before ++ [.visit d, .enter, .leave]
          <+: siblingPreOrder.heard (some (put (.linked d none s))) := by
  cases root with
  | none => exact absurd nofun h
  | some n =>
    rcases Node.exists_linkedGap h with ⟨put, other, hgap, rfl, hother⟩
    rcases hgap.comesTo with ⟨before, hbefore⟩
    have hscript := Node.siblingScript_of_not_linked hother
    have hstops := (hbefore other).stops (by rw [hscript]; nofun)
    rw [hscript] at hstops
    refine ⟨put, other, hgap, rfl, hother, hstops.2, hgap.precede hother, before, ?_, ?_⟩
    · rw [heard_some]
      exact hstops.1
    · intro d s
      have hleaf : (Node.linked d none s).siblingScript.heard = [.visit d, .enter, .leave] := by
        rw [Node.siblingScript_linked, Node.chainScript_none]
        rfl
      rw [heard_some, ← hleaf]
      exact (hbefore (.linked d none s)).heard_begins

theorem inOrder_allOrNothing (root : Option (Node α)) :
    AllOrNothing .inOrder .binary .left root := by
  apply allOrNothing_of_script (scriptOf_covers_of_binary rfl)
  intro h
  rcases exists_inOrder_gap h with ⟨put, other, -, -, hother, hfault, hprecede, -⟩
  exact ⟨other, Node.mem_of_precede hprecede, hother, hfault⟩

theorem siblingPreOrder_allOrNothing (root : Option (Node α)) :
    AllOrNothing .siblingPreOrder .linked .firstChild root := by
  apply allOrNothing_of_script
  · intro huniform
    cases root with
    | none => exact ⟨rfl, .refl _⟩
    | some n => exact script_covers_of_linked rfl huniform
  · intro h
    rcases exists_siblingPreOrder_gap h with ⟨put, other, -, -, hother, hfault, hprecede, -⟩
    exact ⟨other, Node.mem_of_precede hprecede, hother, hfault⟩

theorem iterativePreOrder_allOrNothing (root : Option (Node α)) :
    AllOrNothing .iterativePreOrder .binary .right root := by
  apply allOrNothing_of_script (scriptOf_covers_of_binary rfl)
  intro h
  have hslots : ¬ ∀ n ∈ Node.slotNodesOf root, n.shape = .binary :=
    mt Node.nodesOf_binary_of_slotNodesOf h
  rcases exists_first_not_binary hslots with ⟨before, other, after, hsplit, hbefore, hother⟩
  have hmem : other ∈ Node.slotNodesOf root := by simp [hsplit]
  refine ⟨other, ?_, hother, ?_⟩
  · exact (Node.nodesOf_perm_slotNodesOf root).mem_iff.mpr (List.mem_append_left _ hmem)
  · rw [Node.scriptOf_iterativePreOrder, hsplit, Node.sequence_rightRead_of_first hbefore hother]

variable [IncludesErrors ε]

/-- **Walks for one shape are never cut short in silence.** In-order and iterative pre-order come to
every node of a binary tree once, sibling pre-order to every node of a linked one, and on any other tree
they fail for want of a link, whatever the visitor. Where in-order fails, it stands at the first node of
another shape, and has called the hooks that it calls on the tree with a binary leaf in the place of that
node, up to the leaf's first level. Where sibling pre-order fails, it has called the hooks that it calls
on the tree with a linked leaf in that place, whatever follows the leaf, up to the leaf's level. -/
theorem walks_for_one_shape_all_or_nothing (root : Option (Node α)) (v : Visitor α ε σ) :
    (∀ s ∈ [inOrder, iterativePreOrder, siblingPreOrder],
      s.walk v root = (do v.replay (s.told root).1; Script.finish (s.told root).2)) ∧
    AllOrNothing .inOrder .binary .left root ∧
    AllOrNothing .iterativePreOrder .binary .right root ∧
    AllOrNothing .siblingPreOrder .linked .firstChild root ∧
    ((inOrder.told root).2 ≠ none →
      ∃ put other, Node.BinaryGap put ∧ root = some (put other) ∧ other.shape ≠ .binary ∧
        (inOrder.told root).2 = some (.missingLink other.shape .left) ∧
        Node.Precede .binary other.nodes (Node.nodesOf root) ∧
        ∃ before, inOrder.heard root = before ++ [.enter] ∧
          ∀ d, before ++ [.enter, .leave, .visit d, .enter, .leave]
            <+: inOrder.heard (some (put (.binary d none none)))) ∧
    ((siblingPreOrder.told root).2 ≠ none →
      ∃ put other, Node.LinkedGap put ∧ root = some (put other) ∧ other.shape ≠ .linked ∧
        (siblingPreOrder.told root).2 = some (.missingLink other.shape .firstChild) ∧
        Node.Precede .linked other.nodes (Node.nodesOf root) ∧
        ∃ before, siblingPreOrder.heard root = before ++ [.visit other.data, .enter] ∧
          ∀ d s, before ++ [.visit d, .enter, .leave]
            <+: siblingPreOrder.heard (some (put (.linked d none s)))) := by
  have hin := inOrder_allOrNothing root
  have hsibling := siblingPreOrder_allOrNothing root
  refine ⟨?_, hin, iterativePreOrder_allOrNothing root, hsibling, ?_, ?_⟩
  · intro s _
    rw [walk_eq_follow, told_eq_script]
    rfl
  · intro hfails
    rw [told_eq_script]
    exact exists_inOrder_gap (mt hin.ends_well_iff.mpr hfails)
  · intro hfails
    rw [told_eq_script]
    exact exists_siblingPreOrder_gap (mt hsibling.ends_well_iff.mpr hfails)

/-- A linked tree whose second child is a wide node, with a linked sibling behind that. -/
def intruded : Node Nat :=
  .linked 1 (some (.linked 2 (some (.linked 3 none none)) (some (.wide 4 true [])))) none

-- In-order stops at the linked node 3 of the first tree, before it comes back to the nodes 2 and 1.
-- Sibling pre-order stops at the wide node 4 of the second one, after all of node 2.
theorem detour_and_intruder_interrupt :
    (∃ put other, Node.BinaryGap put ∧ detour = put other ∧
      (inOrder.told (some detour)).2 = some (.missingLink other.shape .left) ∧
      [.enter, .enter, .leave, .visit 2, .enter, .enter, .leave, .visit 7, .enter, .leave]
        <+: inOrder.heard (some (put (.binary 7 none none)))) ∧
    ∃ put other, Node.LinkedGap put ∧ intruded = put other ∧
      (siblingPreOrder.told (some intruded)).2 = some (.missingLink other.shape .firstChild) ∧
      [.visit 1, .enter, .visit 2, .enter, .visit 3, .enter, .leave, .leave, .visit 4, .enter, .leave]
        <+: siblingPreOrder.heard (some (put (.linked 4 none none))) := by
  let v : Visitor Nat Error (Collecting Nat) := Collecting.visitor
  have hdetour := (walks_for_one_shape_all_or_nothing (some detour) v).2.2.2.2.1
  have hintruded := (walks_for_one_shape_all_or_nothing (some intruded) v).2.2.2.2.2
  constructor
  · obtain ⟨put, other, hgap, hroot, -, hfault, -, before, hheard, hleaf⟩ := hdetour nofun
    have hrun : inOrder.heard (some detour)
        = [.enter, .enter, .leave, .visit 2, .enter] ++ [.enter] := rfl
    rw [← List.append_cancel_right (hrun.symm.trans hheard)] at hleaf
    exact ⟨put, other, hgap, Option.some.inj hroot, hfault, hleaf 7⟩
  · obtain ⟨put, other, hgap, hroot, -, hfault, -, before, hheard, hleaf⟩ := hintruded nofun
    have hrun : siblingPreOrder.heard (some intruded)
        = [.visit 1, .enter, .visit 2, .enter, .visit 3, .enter, .leave, .leave]
          ++ [.visit 4, .enter] := rfl
    obtain ⟨hbefore, -⟩ := List.append_inj' (hrun.symm.trans hheard) rfl
    rw [← hbefore] at hleaf
    exact ⟨put, other, hgap, Option.some.inj hroot, hfault, hleaf 4 none⟩

end Strategy

end TreeTraversal
