import TreeTraversal.Proofs.Walk.Transparency
import TreeTraversal.Proofs.Walk.Visited

/-!
# The shape check of plans

A plan is made or refused by a look at the root alone. On a tree of one shape that look tells exactly
whether the walk would come to every node: no walk is refused that would, and none is let through that
would fail or miss a node.
-/

namespace TreeTraversal

theorem Glyphs.issues_eq_nil {g : Glyphs} (h : ∀ name, ∃ text, g.get name = some text ∧ text ≠ "") :
    g.issues = [] := by
  have hnone : ∀ name, g.isEmptyAt name = false := by
    intro name
    rcases h name with ⟨text, hget, htext⟩
    unfold isEmptyAt
    rw [hget]
    exact String.isEmpty_eq_false_iff.mpr htext
  simp [issues, hnone]

namespace Collecting

variable {α ε : Type}

/-- What a collecting visitor holds once it was told of these calls. -/
def ofCalls (calls : List (Event (Node α))) : Collecting α :=
  ⟨(calls.map (Event.map Node.data)).toArray⟩

theorem visited_ofCalls (calls : List (Event (Node α))) :
    (ofCalls calls).visited = (calls.filterMap Event.subject?).map Node.data := by
  have hsubject : ∀ event : Event (Node α),
      (event.map Node.data).subject? = event.subject?.map Node.data := by
    intro event
    cases event <;> rfl
  unfold visited ofCalls
  rw [List.filterMap_map, List.map_filterMap]
  apply List.filterMap_congr
  exact fun event _ => hsubject event

-- A walk with a collecting visitor fails by nothing but a fault of its own.
theorem walk_visitor_eq_ok_iff [IncludesErrors ε] (s : Strategy) (root : Option (Node α))
    (c : Collecting α) :
    s.walk (visitor : Visitor α ε (Collecting α)) root {} = .ok () c ↔
      (s.scriptOf root).fault = none ∧ ofCalls (s.scriptOf root).calls = c := by
  have hcollected : (visitor : Visitor α ε (Collecting α)).replay (s.scriptOf root).calls {}
      = .ok () (ofCalls (s.scriptOf root).calls) := by
    rw [replay_visitor, ofCalls]
    simp
  rw [Strategy.walk_eq_follow, Visitor.follow_eq_ok_iff, hcollected]
  simp

end Collecting

namespace Plan

variable {α ε : Type} {s : Strategy}

/-! ## 1. What is looked at -/

theorem shapeIssues_of_needsBinary (h : s.needsBinary = true) (root : Node α) :
    shapeIssues s root = [] ↔ root.shape = .binary := by
  cases s <;> cases h <;> cases root <;>
    simp [shapeIssues, Strategy.needsBinary, Strategy.needsLinked, Node.shape]

theorem shapeIssues_of_needsLinked (h : s.needsLinked = true) (root : Node α) :
    shapeIssues s root = [] ↔ root.shape = .linked := by
  cases s <;> cases h
  cases root <;> simp [shapeIssues, Strategy.needsBinary, Strategy.needsLinked, Node.shape]

-- A strategy that reaches children through slots is refused only where a linked root hides some.
theorem shapeIssues_of_slots (hbinary : s.needsBinary = false) (hlinked : s.needsLinked = false)
    (root : Node α) :
    shapeIssues s root = [] ↔ (root.shape = .linked → root.isLeaf = true) := by
  rw [shapeIssues, hbinary, hlinked]
  cases root <;> simp [Node.shape]

/-! ## 2. What it says of the whole tree -/

variable {shape : Shape} {root : Option (Node α)}

theorem covers_of_suited (huniform : ∀ n ∈ Node.nodesOf root, n.shape = shape)
    (h : rootIssues s root = []) : (s.scriptOf root).Covers (Node.nodesOf root) := by
  cases root with
  | none => exact ⟨rfl, .refl _⟩
  | some n =>
    have hn : n.Uniform shape := huniform
    have hshape : n.shape = shape := (Node.uniform_iff.mp hn).1
    cases hbinary : s.needsBinary with
    | true =>
      have hroot := (shapeIssues_of_needsBinary hbinary n).mp h
      rw [← hshape, hroot] at hn
      exact Strategy.script_covers_of_binary hbinary hn
    | false =>
      cases hlinked : s.needsLinked with
      | true =>
        have hroot := (shapeIssues_of_needsLinked hlinked n).mp h
        rw [← hshape, hroot] at hn
        exact Strategy.script_covers_of_linked hlinked hn
      | false =>
        have hroot := (shapeIssues_of_slots hbinary hlinked n).mp h
        exact Strategy.script_covers_of_slots hbinary hlinked hn hroot

-- What is refused really fails or stops short, on trees of any shapes.
theorem fallsShort_of_unsuited (h : rootIssues s root ≠ []) :
    (s.scriptOf root).FallsShort (Node.nodesOf root) := by
  cases root with
  | none => exact absurd rfl h
  | some n =>
    cases hbinary : s.needsBinary with
    | true =>
      have hroot := mt (shapeIssues_of_needsBinary hbinary n).mpr h
      exact Strategy.script_fallsShort_of_not_binary hbinary hroot
    | false =>
      cases hlinked : s.needsLinked with
      | true =>
        have hroot := mt (shapeIssues_of_needsLinked hlinked n).mpr h
        exact Strategy.script_fallsShort_of_not_linked hlinked hroot
      | false =>
        have hroot := mt (shapeIssues_of_slots hbinary hlinked n).mpr h
        rcases Classical.not_imp.mp hroot with ⟨hshape, hleaf⟩
        exact Strategy.script_fallsShort_of_slots hbinary hlinked hshape hleaf

variable {σ : Type} [IncludesErrors ε]

theorem perform_of_error {config : Config} {e : Error} (h : create config root = .error e)
    (v : Visitor α ε σ) (start : σ) :
    perform config root v start
      = { outcome := .error (IncludesErrors.ofError e), state := start } := by
  simp only [perform, h]

/-- **The shape check is sound and complete on trees of one shape.** A plan is made if and only if the
walk with a collecting visitor ends well and comes to every node once. The execution of such a plan
counts all nodes; where no plan is made, the strategy is said not to suit the tree, and a visitor that
was to be walked with is called by no hook. -/
theorem create_iff_walk_covers (s : Strategy) (config : Config)
    (hstrategy : config.strategy = .strategy s)
    (hglyphs : ∀ name, ∃ text, config.glyphs.get name = some text ∧ text ≠ "")
    (shape : Shape) (root : Option (Node α)) (huniform : ∀ n ∈ Node.nodesOf root, n.shape = shape) :
    ((∃ p, create config root = .ok p) ↔
      (s.told root).2 = none ∧
        ((s.told root).1.filterMap Event.subject?).Perm (Node.nodesOf root)) ∧
    ((∃ p, create config root = .ok p) ↔
      ∃ c, s.walk (Collecting.visitor : Visitor α ε (Collecting α)) root {} = .ok () c ∧
        c.visited.Perm ((Node.nodesOf root).map Node.data)) ∧
    (∀ p, create config root = .ok p →
      (p.execute (Collecting.visitor : Visitor α ε (Collecting α)) {}).outcome
        = .ok (Node.nodesOf root).length) ∧
    ∀ e, create config root = .error e →
      e = .unsuitedStrategy (rootIssues s root) ∧
      ∀ (v : Visitor α ε σ) (start : σ),
        perform config root (v.watched Visitor.listCalls) ⟨start, []⟩
          = { outcome := .error (IncludesErrors.ofError e), state := ⟨start, []⟩ } := by
  have hissues := Glyphs.issues_eq_nil hglyphs
  have hwalk := Collecting.walk_visitor_eq_ok_iff (ε := ε) s root
  rw [Strategy.told_eq_script]
  by_cases hroot : rootIssues s root = []
  · have hcreate := create_of_suited hstrategy hissues hroot
    have hcovers := covers_of_suited huniform hroot
    have hcollected := (hwalk _).mpr ⟨hcovers.1, rfl⟩
    refine ⟨iff_of_true ⟨_, hcreate⟩ hcovers, iff_of_true ⟨_, hcreate⟩ ⟨_, hcollected, ?_⟩, ?_, ?_⟩
    · rw [Collecting.visited_ofCalls]
      exact hcovers.2.map Node.data
    · intro p hp
      have hfresh := eq_fresh_of_create hstrategy hp
      subst hfresh
      have houtcome := (execute_of_ok (p := fresh config root s) hcollected).2
      rw [houtcome, fresh, conclude_of_strategy hstrategy]
      -- a collecting visitor is always balanced
      simp only [Collecting.visitor, Bool.not_true, Bool.and_false, Bool.false_eq_true, ↓reduceIte]
      exact congrArg Except.ok hcovers.2.length_eq
    · intro e he
      rw [hcreate] at he
      cases he
  · have hcreate := create_of_unsuited hstrategy hissues hroot
    have hshort := fallsShort_of_unsuited hroot
    have hnone : ¬ ∃ p, create config root = .ok p := by
      intro hmade
      rcases hmade with ⟨p, hp⟩
      rw [hcreate] at hp
      cases hp
    refine ⟨iff_of_false hnone fun hcovers => Script.Covers.not_fallsShort hcovers hshort,
      iff_of_false hnone ?_, ?_, ?_⟩
    · intro hcollects
      rcases hcollects with ⟨c, hcollected, hperm⟩
      rcases (hwalk c).mp hcollected with ⟨hfault, rfl⟩
      -- a walk that stops short has visited too few nodes, whatever their data
      have hlength := hperm.length_eq
      rw [Collecting.visited_ofCalls, List.length_map, List.length_map] at hlength
      rcases hshort with hfails | hless
      · exact hfails hfault
      · exact Nat.ne_of_lt hless hlength
    · intro p hp
      exact absurd ⟨p, hp⟩ hnone
    · intro e he
      rw [hcreate] at he
      cases he
      exact ⟨rfl, fun v start => perform_of_error hcreate _ _⟩

-- Sibling pre-order is let through on the linked tree and counts its four nodes; pre-order would see no
-- more than the root, and is refused.
theorem outline_suits_sibling_pre_order :
    (∃ p, create .directory (some Node.outline) = .ok p ∧
      (p.execute (Collecting.visitor : Visitor Value Error (Collecting Value)) {}).outcome = .ok 4) ∧
    ¬ ∃ c, Strategy.preOrder.walk (Collecting.visitor : Visitor Value Error (Collecting Value))
        (some Node.outline) {} = .ok () c ∧
      c.visited.Perm ((Node.nodesOf (some Node.outline)).map Node.data) := by
  have hglyphs : ∀ name, ∃ text, Glyphs.boxDrawing.get name = some text ∧ text ≠ "" := by
    intro name
    cases name <;> exact ⟨_, rfl, by decide⟩
  have hnodes : (Node.nodesOf (some Node.outline)).length = 4 := by
    simp [Node.nodesOf, Node.outline, Node.nodes_eq, Node.offspring, Node.chain]
  constructor
  · have hcounts := (create_iff_walk_covers (ε := Error) (σ := Unit) .siblingPreOrder .directory rfl
      hglyphs .linked (some Node.outline) Node.uniform_outline).2.2.1
    rw [hnodes] at hcounts
    exact ⟨fresh .directory (some Node.outline) .siblingPreOrder, rfl, hcounts _ rfl⟩
  · have hcovers := (create_iff_walk_covers (ε := Error) (σ := Unit) .preOrder {} rfl
      hglyphs .linked (some Node.outline) Node.uniform_outline).2.1
    intro hwalk
    rcases hcovers.mpr hwalk with ⟨p, hp⟩
    cases hp

end Plan

end TreeTraversal
