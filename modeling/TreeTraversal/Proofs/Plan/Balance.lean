import TreeTraversal.Proofs.Visitor.Levels
import TreeTraversal.Proofs.Walk.Transparency

/-!
# Who is to blame for open levels

A walk that completes has left every level that it entered. So the check of balance at the end of an
execution finds fault only with a visitor that was unbalanced when the walk began.
-/

namespace TreeTraversal

/-! ## 1. Visitors whose balance a walk keeps -/

namespace Directory

theorem aligned_afterAll (sink : Sink) (glyphs : Glyphs) (history : List (Event (Node Value))) :
    Aligned glyphs
      ((visitor : Visitor Value Error Directory).afterAll { sink, glyphs } history) :=
  Visitor.afterAll_keeps keeps_aligned history ⟨rfl, rfl⟩

theorem SameLevels.isBalanced_eq {d d' : Directory} (h : SameLevels d d') :
    d'.isBalanced = d.isBalanced := by
  unfold isBalanced
  rw [h.depth_eq]

end Directory

namespace Recording

variable {α ε : Type}

theorem sound_afterAll (history : List (Event (Node α))) :
    Sound ((visitor : Visitor α ε (Recording α)).afterAll {} history) :=
  Visitor.afterAll_keeps keeps_sound history (.inl (Int.le_refl 0))

theorem SameLevels.isBalanced_eq {r r' : Recording α} (h : SameLevels r r') :
    r'.isBalanced = r.isBalanced := by
  unfold isBalanced
  rw [h.depth_eq, h.underflow_eq]

theorem sameLevels_follow [IncludesErrors ε] {script : Script α} (h : script.Bracketed)
    {r r' : Recording α} (hr : Sound r)
    (hrun : (visitor : Visitor α ε (Recording α)).follow script r = .ok () r') :
    SameLevels r r' := by
  obtain ⟨hfault, hreplay⟩ := (Visitor.follow_eq_ok_iff _ _ _ _).mp hrun
  rw [replay_eq_ok] at hreplay
  cases hreplay
  exact sameLevels_afterAll (h.nested hfault) hr

end Recording

/-! ## 2. Executions -/

namespace Plan

/-- What an execution comes to after a walk that visited so many nodes, under a configuration that names
this strategy: it blames the visitor if balance is required and the visitor has none. -/
def verdict (config : Config) (t : Strategy) (visitor : String) (isBalanced : Bool) (count : Nat) :
    Except Error Nat :=
  if config.requireBalanced.isTruthy && !isBalanced then .error (.unbalanced visitor t)
  else .ok count

theorem verdict_balanced (config : Config) (t : Strategy) (visitor : String) (count : Nat) :
    verdict config t visitor true count = .ok count := by
  unfold verdict
  rw [Bool.not_true, Bool.and_false]
  exact if_neg Bool.false_ne_true

-- Where the walk keeps the visitor's balance, the check at the end looks at how the visitor came.
theorem execute_of_kept_balance {α σ : Type} {p : Plan α} {t : Strategy}
    (hstrategy : p.config.strategy = .strategy t) {v : Visitor α Error σ} {start s' : σ}
    (hwalk : p.chosen.walk v p.root start = .ok () s')
    (hkept : v.isBalanced s' = v.isBalanced start) :
    (p.execute v start).outcome
      = verdict p.config t v.name (v.isBalanced start) (visits (p.chosen.told p.root).1) := by
  have houtcome := (execute_of_ok hwalk).2
  rw [houtcome, conclude_of_strategy hstrategy, hkept, Strategy.told_eq_script, verdict]
  by_cases hfails : (p.config.requireBalanced.isTruthy && !v.isBalanced start) = true
  · rw [if_pos hfails, if_pos hfails]
    rfl
  · rw [if_neg hfails, if_neg hfails]

/-- **Walks are neutral, and only an unbalanced visitor is blamed.** Let a directory visitor and a
recording visitor have been told anything before, with hooks that failed or not. No walk leaves a level
that it has not entered, and if it completes, the levels are as they were before it, with the same
indent. So a plan whose configuration still names a strategy is said to end unbalanced, after a
completed walk, if and only if balance is required and the visitor was unbalanced before; and a visitor
that does not care about levels never is. -/
theorem completed_walk_neutral (s : Strategy) (root : Option (Node Value)) (sink : Sink)
    (glyphs : Glyphs) (history : List (Event (Node Value))) :
    let drawer : Visitor Value Error Directory := Directory.visitor
    let recorder : Visitor Value Error (Recording Value) := Recording.visitor
    let d := drawer.afterAll { sink, glyphs } history
    let r := recorder.afterAll {} history
    (∀ e d', s.walk drawer root d = .error e d' → e ≠ .unmatchedLeave) ∧
    (∀ d', s.walk drawer root d = .ok () d' →
      d'.depth = d.depth ∧ d'.segments = d.segments ∧ d'.isBalanced = d.isBalanced) ∧
    (stateLeft (s.walk recorder root) r).underflow = r.underflow ∧
    (∀ r', s.walk recorder root r = .ok () r' →
      r'.depth = r.depth ∧ r'.isBalanced = r.isBalanced) ∧
    ∀ (config : Config) (nodesVisited : Nat) (t : Strategy), config.strategy = .strategy t →
      let p : Plan Value := ⟨config, root, s, nodesVisited⟩
      let count := visits (s.told root).1
      (∀ d', s.walk drawer root d = .ok () d' →
        (p.execute drawer d).outcome = verdict config t drawer.name d.isBalanced count) ∧
      (∀ r', s.walk recorder root r = .ok () r' →
        (p.execute recorder r).outcome = verdict config t recorder.name r.isBalanced count) ∧
      ∀ (σ : Type) (v : Visitor Value Error σ), (∀ state, v.isBalanced state = true) →
        ∀ start s', s.walk v root start = .ok () s' → (p.execute v start).outcome = .ok count := by
  intro drawer recorder d r
  have hbracketed := s.bracketed_scriptOf root
  have hd : Directory.NeutralAt d (s.walk drawer root) := by
    rw [Strategy.walk_eq_follow]
    exact Directory.neutralAt_follow hbracketed (Directory.aligned_afterAll sink glyphs history)
  have hsound : Recording.Sound r := Recording.sound_afterAll history
  have hr : ∀ r', s.walk recorder root r = .ok () r' → Recording.SameLevels r r' := by
    intro r' hrun
    rw [Strategy.walk_eq_follow] at hrun
    exact Recording.sameLevels_follow hbracketed hsound hrun
  refine ⟨hd.ne_unmatchedLeave, ?_, ?_, ?_, ?_⟩
  · intro d' hrun
    have hsame := hd.sameLevels d' hrun
    exact ⟨hsame.depth_eq, hsame.segments_eq, hsame.isBalanced_eq⟩
  · rw [Strategy.walk_eq_follow]
    exact Recording.underflow_follow hbracketed hsound
  · intro r' hrun
    have hsame := hr r' hrun
    exact ⟨hsame.depth_eq, hsame.isBalanced_eq⟩
  · intro config nodesVisited t hstrategy p count
    have hplan : p.config.strategy = .strategy t := hstrategy
    refine ⟨?_, ?_, ?_⟩
    · intro d' hrun
      exact execute_of_kept_balance hplan hrun (hd.sameLevels d' hrun).isBalanced_eq
    · intro r' hrun
      exact execute_of_kept_balance hplan hrun (hr r' hrun).isBalanced_eq
    · intro σ v hv start s' hrun
      rw [execute_of_kept_balance hplan hrun ((hv s').trans (hv start).symm), hv start]
      exact verdict_balanced config t v.name count

/-- Hooks that leave a level before any was entered, and then leave two levels open. -/
def openHooks : List (Event (Node Value)) :=
  [.leave, .enter, .visit (.wide (.str "x") true []), .enter]

theorem outline_walked_inside_open_levels :
    let drawer : Visitor Value Error Directory := Directory.visitor
    let recorder : Visitor Value Error (Recording Value) := Recording.visitor
    let d := drawer.afterAll {} openHooks
    let r := recorder.afterAll {} openHooks
    let p : Plan Value := ⟨.flat, some Node.outline, .siblingPreOrder, 0⟩
    d.depth = 2 ∧ r.underflow = true ∧
      (∃ d', Strategy.siblingPreOrder.walk drawer (some Node.outline) d = .ok () d' ∧
        d'.depth = 2 ∧ d'.segments = [some " "]) ∧
      (p.execute drawer d).outcome = .error (.unbalanced "DirectoryVisitor" .breadthFirst) ∧
      (p.execute recorder r).outcome = .error (.unbalanced "RecordingVisitor" .breadthFirst) ∧
      (p.execute (Collecting.visitor : Visitor Value Error (Collecting Value)) {}).outcome
        = .ok 4 := by
  intro drawer recorder d r p
  obtain ⟨-, hdrawn, -, -, hexecuted⟩ :=
    completed_walk_neutral .siblingPreOrder (some Node.outline) {} .boxDrawing openHooks
  obtain ⟨hdrawer, hrecorder, hothers⟩ := hexecuted .flat 0 .breadthFirst rfl
  obtain ⟨d', hrun⟩ : ∃ d',
      Strategy.siblingPreOrder.walk drawer (some Node.outline) d = .ok () d' := ⟨_, rfl⟩
  obtain ⟨hdepth, hsegments, -⟩ := hdrawn d' hrun
  have hcount : visits (Strategy.siblingPreOrder.told (some Node.outline)).1 = 4 := by
    decide +kernel
  have hcollected := hothers _ Collecting.visitor (fun _ => rfl) {} _ rfl
  rw [hcount] at hcollected
  exact ⟨rfl, rfl, ⟨d', hrun, hdepth, hsegments⟩, hdrawer d' hrun, hrecorder _ rfl, hcollected⟩

end Plan

end TreeTraversal
