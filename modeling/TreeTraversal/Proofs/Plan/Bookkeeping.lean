import TreeTraversal.Proofs.Walk.Transparency

/-!
# The books that a plan keeps

A plan is executed any number of times, and its configuration is assigned to in between. What stays is
the walk that was chosen when the plan was made; what changes is the count, and it changes only when a
walk completes.
-/

namespace TreeTraversal

/-! ## 1. What can be done with a plan -/

/-- Something that is done with a plan once it is made: a field of its configuration is assigned to, or
it is executed with a visitor in some state. -/
inductive Deed (α ε : Type) : Type 1 where
  | assignStrategy (value : Value)
  | assignGlyphs (glyphs : Glyphs)
  | assignRequireBalanced (value : Value)
  | execute {σ : Type} (v : Visitor α ε σ) (start : σ)

namespace Plan

variable {α ε σ : Type} [IncludesErrors ε]

/-- The plan after a deed. -/
def after (p : Plan α) : Deed α ε → Plan α
  | .assignStrategy value => { p with config := { p.config with strategy := value } }
  | .assignGlyphs glyphs => { p with config := { p.config with glyphs := glyphs } }
  | .assignRequireBalanced value =>
    { p with config := { p.config with requireBalanced := value } }
  | .execute v start => (p.execute v start).state.1

/-- The plan after some deeds. -/
def afterAll (p : Plan α) (deeds : List (Deed α ε)) : Plan α :=
  deeds.foldl after p

/-- The number of times that a walk calls the visitor's hook for a node, if the walk completes. -/
def visitsMade (s : Strategy) (root : Option (Node α)) (v : Visitor α ε σ) (start : σ) :
    Option Nat :=
  match s.walk (v.watched Visitor.listCalls) root ⟨start, []⟩ with
  | .ok _ w => some (visits w.notes)
  | .error _ _ => none

/-- What an execution adds to the books, if its walk completes. -/
def entry (s : Strategy) (root : Option (Node α)) : Deed α ε → Option Nat
  | .execute v start => visitsMade s root v start
  | _ => none

/-! ## 2. One deed -/

theorem visitsMade_of_ok {s : Strategy} {root : Option (Node α)} {v : Visitor α ε σ} {start s' : σ}
    (h : s.walk v root start = .ok () s') :
    visitsMade s root v start = some (visits (s.scriptOf root).calls) := by
  rw [Strategy.walk_eq_follow] at h
  have hlisted := Visitor.follow_watched_of_ok Visitor.listCalls_eq v [] h
  rw [List.foldl_append_eq_append, ← List.flatMap_def, List.flatMap_singleton',
    List.nil_append] at hlisted
  unfold visitsMade
  rw [Strategy.walk_eq_follow, hlisted]

theorem visitsMade_of_error {s : Strategy} {root : Option (Node α)} {v : Visitor α ε σ}
    {start s' : σ} {e : ε} (h : s.walk v root start = .error e s') :
    visitsMade s root v start = none := by
  rw [Strategy.walk_eq_follow] at h
  obtain ⟨calls, hlisted⟩ := Visitor.follow_watched_of_error Visitor.listCalls_eq v [] h
  unfold visitsMade
  rw [Strategy.walk_eq_follow, hlisted]

-- An execution changes nothing of the plan but the count, and that only after a completed walk.
theorem execute_plan (p : Plan α) (v : Visitor α ε σ) (start : σ) :
    (p.execute v start).state.1
      = { p with nodesVisited := (visitsMade p.chosen p.root v start).getD p.nodesVisited } := by
  cases hwalk : p.chosen.walk v p.root start with
  | ok u s' =>
    have hstate := (execute_of_ok hwalk).1
    rw [visitsMade_of_ok hwalk, hstate]
    rfl
  | error e s' =>
    rw [execute_of_error hwalk, visitsMade_of_error hwalk]
    rfl

theorem execute_visitor (p : Plan α) (v : Visitor α ε σ) (start : σ) :
    (p.execute v start).state.2 = stateLeft (p.chosen.walk v p.root) start := by
  cases hwalk : p.chosen.walk v p.root start with
  | ok u s' => rw [(execute_of_ok hwalk).1, stateLeft_of_ok hwalk]
  | error e s' => rw [execute_of_error hwalk, stateLeft_of_error hwalk]

/-- The books after a deed: the same walk of the same tree, and the count of the walk if there was one
that completed. -/
theorem after_books (p : Plan α) (deed : Deed α ε) :
    (p.after deed).chosen = p.chosen ∧ (p.after deed).root = p.root ∧
      (p.after deed).nodesVisited = (entry p.chosen p.root deed).getD p.nodesVisited := by
  cases deed with
  | assignStrategy value => exact ⟨rfl, rfl, rfl⟩
  | assignGlyphs glyphs => exact ⟨rfl, rfl, rfl⟩
  | assignRequireBalanced value => exact ⟨rfl, rfl, rfl⟩
  | execute v start =>
    have hplan : p.after (.execute v start) = _ := execute_plan p v start
    rw [hplan]
    exact ⟨rfl, rfl, rfl⟩

/-! ## 3. All deeds -/

theorem afterAll_books (p : Plan α) (deeds : List (Deed α ε)) :
    (p.afterAll deeds).chosen = p.chosen ∧ (p.afterAll deeds).root = p.root ∧
      (p.afterAll deeds).nodesVisited
        = ((deeds.filterMap (entry p.chosen p.root)).getLast?).getD p.nodesVisited := by
  induction deeds generalizing p with
  | nil => exact ⟨rfl, rfl, rfl⟩
  | cons deed rest ih =>
    obtain ⟨hchosen, hroot, hcount⟩ := after_books p deed
    obtain ⟨hchosen', hroot', hcount'⟩ := ih (p.after deed)
    refine ⟨hchosen'.trans hchosen, hroot'.trans hroot, ?_⟩
    show ((p.after deed).afterAll rest).nodesVisited = _
    rw [hcount', hchosen, hroot, hcount, List.filterMap_cons]
    -- an entry of the rest, if there is one, comes after the entry of this deed
    cases entry p.chosen p.root deed with
    | none => rfl
    | some n =>
      rw [List.getLast?_cons]
      rfl

theorem strategy_of_create {config : Config} {root : Option (Node α)} {p : Plan α}
    (h : create config root = .ok p) :
    config.strategy = .strategy p.chosen ∧ p.root = root ∧ p.nodesVisited = 0 := by
  unfold create at h
  split at h
  · rename_i s _ hstrategy
    split at h
    · cases h
      exact ⟨hstrategy, rfl, rfl⟩
    · cases h
  · cases h

/-! ## 4. What an execution reports -/

-- A walk that completes is followed by one of three exits: the configuration may name no strategy any
-- more, the visitor may be blamed, and otherwise the count is reported.
theorem execute_exits {p : Plan α} {v : Visitor α ε σ} {start s' : σ}
    (h : p.chosen.walk v p.root start = .ok () s') :
    ((∃ n, (p.execute v start).outcome = .ok n) ↔
      ∃ t, p.config.strategy = .strategy t ∧
        (p.config.requireBalanced.isTruthy = true → v.isBalanced s' = true)) ∧
    (∀ n, (p.execute v start).outcome = .ok n →
      n = (p.execute v start).state.1.nodesVisited ∧
        ∃ t, p.config.strategy = .strategy t ∧ (p.execute v start).records = [.executed t n]) ∧
    ∀ e, (p.execute v start).outcome = .error e → (p.execute v start).records = [] := by
  rw [execute_eq_of_ok h]
  by_cases hstrategy : ∃ t, p.config.strategy = .strategy t
  · obtain ⟨t, ht⟩ := hstrategy
    rw [conclude_of_strategy ht]
    by_cases hfails : (p.config.requireBalanced.isTruthy && !v.isBalanced s') = true
    · rw [if_pos hfails]
      obtain ⟨hrequired, hunbalanced⟩ := Bool.and_eq_true_iff.mp hfails
      refine ⟨iff_of_false ?_ ?_, nofun, fun _ _ => rfl⟩
      · rintro ⟨n, hn⟩
        cases hn
      · rintro ⟨t', -, hbalanced⟩
        rw [hbalanced hrequired] at hunbalanced
        cases hunbalanced
    · rw [if_neg hfails]
      refine ⟨iff_of_true ⟨_, rfl⟩ ⟨t, ht, fun hrequired => ?_⟩, fun n hn => ?_, nofun⟩
      · rw [hrequired, Bool.true_and, Bool.not_eq_true, Bool.not_eq_false'] at hfails
        exact hfails
      · cases hn
        exact ⟨rfl, t, ht, rfl⟩
  · have hnone : ∀ t, p.config.strategy ≠ .strategy t := fun t ht => hstrategy ⟨t, ht⟩
    rw [conclude_of_no_strategy hnone]
    refine ⟨iff_of_false ?_ ?_, nofun, fun _ _ => rfl⟩
    · rintro ⟨n, hn⟩
      cases hn
    · rintro ⟨t, ht, -⟩
      exact hnone t ht

/-- **The count is that of the last walk that completed.** After any deeds, a plan walks its tree as it
was going to when it was made, whatever its configuration says now. Its count is the number of visits
that the last completed walk made, or zero; a walk that fails does not touch it. An execution returns if
and only if its walk completes, the configuration names a strategy, and the visitor is balanced where
that is required. It then returns the count and makes one record of it; otherwise it makes none. -/
theorem count_is_last_completed {config : Config} {root : Option (Node α)} {p : Plan α}
    (hp : create config root = .ok p) (deeds : List (Deed α ε)) :
    let q := p.afterAll deeds
    config.strategy = .strategy p.chosen ∧
    q.nodesVisited = ((deeds.filterMap (entry p.chosen root)).getLast?).getD 0 ∧
    ∀ (σ : Type) (v : Visitor α ε σ) (start : σ),
      let walk := p.chosen.walk v root
      let run := q.execute v start
      run.state.2 = stateLeft walk start ∧
      (∀ e s', walk start = .error e s' → run.outcome = .error e ∧ run.state.1 = q) ∧
      (∀ s', walk start = .ok () s' →
        visitsMade p.chosen root v start = some run.state.1.nodesVisited ∧
        ((∃ n, run.outcome = .ok n) ↔
          ∃ t, q.config.strategy = .strategy t ∧
            (q.config.requireBalanced.isTruthy = true → v.isBalanced s' = true))) ∧
      (∀ n, run.outcome = .ok n →
        n = run.state.1.nodesVisited ∧ ∃ t, run.records = [.executed t n]) ∧
      ∀ e, run.outcome = .error e → run.records = [] := by
  intro q
  obtain ⟨hstrategy, hroot, hzero⟩ := strategy_of_create hp
  obtain ⟨hchosen, hsame, hcount⟩ := afterAll_books p deeds
  rw [hroot] at hsame hcount
  rw [hzero] at hcount
  refine ⟨hstrategy, hcount, ?_⟩
  intro σ v start walk run
  -- the walk of the plan as it is now is the walk of the plan as it was made
  have hwalk : q.chosen.walk v q.root = walk := by
    rw [hchosen, hsame]
  refine ⟨?_, ?_, ?_, ?_, ?_⟩
  · rw [← hwalk]
    exact execute_visitor q v start
  · intro e s' hfailed
    rw [← hwalk] at hfailed
    have hrun : run = { outcome := .error e, state := (q, s') } := execute_of_error hfailed
    rw [hrun]
    exact ⟨rfl, rfl⟩
  · intro s' hcompleted
    have hvisits := visitsMade_of_ok hcompleted
    rw [← hwalk] at hcompleted
    have hplan : run.state.1 = _ := execute_plan q v start
    rw [hchosen, hsame, hvisits] at hplan
    refine ⟨?_, (execute_exits hcompleted).1⟩
    rw [hplan, hvisits]
    rfl
  · intro n hn
    cases hrun : walk start with
    | error e s' =>
      rw [← hwalk] at hrun
      have hfailed : run = { outcome := .error e, state := (q, s') } := execute_of_error hrun
      rw [hfailed] at hn
      cases hn
    | ok u s' =>
      rw [← hwalk] at hrun
      obtain ⟨heq, t, -, hrecords⟩ := (execute_exits hrun).2.1 n hn
      exact ⟨heq, t, hrecords⟩
  · intro e he
    cases hrun : walk start with
    | error f s' =>
      rw [← hwalk] at hrun
      have hfailed : run = { outcome := .error f, state := (q, s') } := execute_of_error hrun
      rw [hfailed]
    | ok u s' =>
      rw [← hwalk] at hrun
      exact (execute_exits hrun).2.2 e he

/-- A visitor that fails at the first node. -/
def refusing : Visitor Value Error Unit where
  name := "Refusing"
  visit n := Error.raise (.notVisited n.data)
  enter := pure ()
  leave := pure ()

/-- A walk that completes, one that fails, and the loss of the strategy. -/
def mixedDeeds : List (Deed Value Error) :=
  [.execute (Collecting.visitor : Visitor Value Error (Collecting Value)) {}, .execute refusing (),
    .assignStrategy (.str "pre"), .assignRequireBalanced (.bool false)]

-- A fifth deed, whose walk completes although the configuration names no strategy, is counted but not
-- reported.
theorem outline_counted_after_mixed_deeds :
    ∃ p, create .directory (some Node.outline) = .ok p ∧
      let q := p.afterAll mixedDeeds
      let run := q.execute (Collecting.visitor : Visitor Value Error (Collecting Value)) {}
      q.nodesVisited = 4 ∧ run.state.1.nodesVisited = 4 ∧ ¬ ∃ n, run.outcome = .ok n := by
  obtain ⟨-, hcount, hexecuted⟩ :=
    @count_is_last_completed _ _ _ .directory (some Node.outline) _ rfl mixedDeeds
  obtain ⟨-, -, hcompleted, -, -⟩ :=
    hexecuted _ (Collecting.visitor : Visitor Value Error (Collecting Value)) {}
  obtain ⟨hvisits, hreturns⟩ := hcompleted _ rfl
  have hlast : ((mixedDeeds.filterMap
      (entry Strategy.siblingPreOrder (some Node.outline))).getLast?).getD 0 = 4 := by
    decide +kernel
  have hmade : visitsMade Strategy.siblingPreOrder (some Node.outline)
      (Collecting.visitor : Visitor Value Error (Collecting Value)) {} = some 4 := by
    decide +kernel
  refine ⟨_, rfl, hcount.trans hlast, Option.some.inj (hvisits.symm.trans hmade), ?_⟩
  rw [hreturns]
  rintro ⟨t, ht, -⟩
  cases ht

end Plan

end TreeTraversal
