import TreeTraversal.Proofs.Plan.Execution

/-!
# Visitors have no influence on walks

What a collecting visitor is told by a walk, any other visitor is told too, up to the first of its hooks
that fails; nothing a visitor does changes which hook comes next. Executing a plan is no different from
its walk, apart from the count.
-/

namespace TreeTraversal

/-- The same event about something that belongs to its subject. -/
def Event.map {α β : Type} (f : α → β) : Event α → Event β
  | .visit a => .visit (f a)
  | .enter => .enter
  | .leave => .leave

namespace Visitor

variable {α σ : Type}

/-- Keeps a list of the hooks that were called. -/
def listCalls (event : Event (Node α)) (_ : σ) (calls : List (Event (Node α))) :
    List (Event (Node α)) :=
  calls ++ [event]

theorem listCalls_eq (event : Event (Node α)) (s : σ) (calls : List (Event (Node α))) :
    listCalls event s calls = calls ++ [event] :=
  rfl

end Visitor

namespace Collecting

variable {α ε : Type}

-- A collecting visitor never fails, and keeps what it is told with nodes reduced to their data.
theorem replay_visitor (calls : List (Event (Node α))) (c : Collecting α) :
    (visitor : Visitor α ε (Collecting α)).replay calls c
      = .ok () ⟨c.events ++ (calls.map (Event.map Node.data)).toArray⟩ := by
  induction calls generalizing c with
  | nil => simp [Visitor.replay, pure, EStateM.pure]
  | cons event rest ih =>
    have hevent : (visitor : Visitor α ε (Collecting α)).handle event c
        = .ok () (c.note (event.map Node.data)) := by
      cases event <;> rfl
    rw [Visitor.replay, bind_of_ok hevent, ih]
    simp [note]

end Collecting

namespace Strategy

variable {α ε σ : Type}

/-- The hooks that a collecting visitor is told by a walk, and the error that ends the walk, if one
does. -/
def told (s : Strategy) (root : Option (Node α)) : List (Event (Node α)) × Option Error :=
  match s.walk ((Collecting.visitor : Visitor α Error (Collecting α)).watched Visitor.listCalls) root
    ⟨{}, []⟩ with
  | .ok _ w => (w.notes, none)
  | .error e w => (w.notes, some e)

theorem told_eq_script (s : Strategy) (root : Option (Node α)) :
    s.told root = ((s.scriptOf root).calls, (s.scriptOf root).fault) := by
  have hcollected := Collecting.replay_visitor (ε := Error) (s.scriptOf root).calls {}
  have hlisted := Visitor.replay_watched_of_ok Visitor.listCalls_eq _ [] hcollected
  rw [List.foldl_append_eq_append, ← List.flatMap_def, List.flatMap_singleton',
    List.nil_append] at hlisted
  rw [told, walk_eq_follow, Visitor.follow, bind_of_ok hlisted]
  cases (s.scriptOf root).fault with
  | none => rw [Script.finish_none]
  | some e =>
    rw [Script.finish_some]
    rfl

variable [IncludesErrors ε]

/-- **Visitors have no influence on walks, and plans are transparent.** A walk with any visitor calls
the visitor's hooks as a collecting visitor is told of them, up to the first that fails, and then ends
as the walk of the collecting visitor ended. An accepted plan leaves the visitor in the same state and
fails with the same error; if the walk completes, the visits are counted and the balance is checked. -/
theorem walk_eq_replay_told (s : Strategy) (root : Option (Node α)) (v : Visitor α ε σ) (start : σ) :
    s.walk v root start = (do v.replay (s.told root).1; Script.finish (s.told root).2) start ∧
    (stateLeft (s.walk (Collecting.visitor : Visitor α ε (Collecting α)) root) {}).events.toList
      = (s.told root).1.map (Event.map Node.data) ∧
    ∀ (config : Config) (p : Plan α), config.strategy = .strategy s →
      Plan.create config root = .ok p →
        (p.execute v start).state.2 = stateLeft (s.walk v root) start ∧
        (∀ e s', s.walk v root start = .error e s' → (p.execute v start).outcome = .error e) ∧
        (∀ s', s.walk v root start = .ok () s' →
          (p.execute v start).state.1.nodesVisited = Plan.visits (s.told root).1 ∧
          (p.execute v start).outcome =
            if config.requireBalanced.isTruthy && !v.isBalanced s' then
              .error (IncludesErrors.ofError (.unbalanced v.name s))
            else
              .ok (Plan.visits (s.told root).1)) := by
  have htold := told_eq_script s root
  refine ⟨?_, ?_, ?_⟩
  · rw [walk_eq_follow, htold]
    rfl
  · have hcollected := Collecting.replay_visitor (ε := ε) (s.scriptOf root).calls {}
    rw [walk_eq_follow, Visitor.stateLeft_follow_of_ok hcollected, htold]
    simp
  · intro config p hstrategy hcreate
    have hfresh := Plan.eq_fresh_of_create hstrategy hcreate
    subst hfresh
    cases hwalk : s.walk v root start with
    | error e s' =>
      have hexecute := Plan.execute_of_error (p := Plan.fresh config root s) hwalk
      rw [stateLeft_of_error hwalk, hexecute]
      refine ⟨rfl, ?_, nofun⟩
      intro e₁ s₁ hsame
      cases hsame
      rfl
    | ok u s' =>
      rcases Plan.execute_of_ok (p := Plan.fresh config root s) hwalk with ⟨hstate, houtcome⟩
      rw [stateLeft_of_ok hwalk, hstate]
      refine ⟨rfl, nofun, ?_⟩
      intro s₁ hsame
      cases hsame
      refine ⟨by rw [htold]; rfl, ?_⟩
      rw [houtcome, htold, Plan.fresh, Plan.conclude_of_strategy hstrategy]
      by_cases hfails : (config.requireBalanced.isTruthy && !v.isBalanced s') = true
      · rw [if_pos hfails, if_pos hfails]
      · rw [if_neg hfails, if_neg hfails]

/-- A binary root that has a linked node to its left. -/
def mixedTree : Node Nat :=
  .binary 1 (some (.linked 2 none none)) none

theorem mixedTree_fails_in_order_and_counts_in_pre_order :
    ((Plan.fresh { strategy := .strategy .inOrder } (some mixedTree) .inOrder).execute
        (Collecting.visitor : Visitor Nat Error (Collecting Nat)) {}).outcome
      = .error (.missingLink .linked .left) ∧
    ((Plan.fresh {} (some mixedTree) .preOrder).execute
        (Collecting.visitor : Visitor Nat Error (Collecting Nat)) {}).outcome = .ok 2 := by
  have hfails := ((walk_eq_replay_told .inOrder (some mixedTree)
    (Collecting.visitor : Visitor Nat Error (Collecting Nat)) {}).2.2
      { strategy := .strategy .inOrder } (Plan.fresh _ _ .inOrder) rfl rfl).2.1
  have hcounts := ((walk_eq_replay_told .preOrder (some mixedTree)
    (Collecting.visitor : Visitor Nat Error (Collecting Nat)) {}).2.2
      {} (Plan.fresh _ _ .preOrder) rfl rfl).2.2
  refine ⟨hfails _ _ rfl, ?_⟩
  rw [(hcounts _ rfl).2]
  rfl

end Strategy

end TreeTraversal
