import TreeTraversal.Plan
import TreeTraversal.Proofs.Visitor.Watched

/-!
# Making and executing plans

When a plan is made, and what its execution amounts to, in terms of the walk that it stands for.
-/

namespace TreeTraversal.Plan

variable {α ε σ : Type}

/-! ## 1. Making a plan -/

/-- The plan that is made from a configuration with this strategy, if one is made. -/
def fresh (config : Config) (root : Option (Node α)) (s : Strategy) : Plan α :=
  { config := config, root := root, chosen := s }

theorem create_of_suited {config : Config} {root : Option (Node α)} {s : Strategy}
    (hstrategy : config.strategy = .strategy s) (hglyphs : config.glyphs.issues = [])
    (hroot : rootIssues s root = []) : create config root = .ok (fresh config root s) := by
  have hissues : config.issues = [] := by
    unfold Config.issues
    rw [hstrategy, hglyphs]
    rfl
  simp only [create, hissues, hstrategy, hroot, fresh]

theorem create_of_unsuited {config : Config} {root : Option (Node α)} {s : Strategy}
    (hstrategy : config.strategy = .strategy s) (hglyphs : config.glyphs.issues = [])
    (hroot : rootIssues s root ≠ []) :
    create config root = .error (.unsuitedStrategy (rootIssues s root)) := by
  have hissues : config.issues = [] := by
    unfold Config.issues
    rw [hstrategy, hglyphs]
    rfl
  cases hr : rootIssues s root with
  | nil => exact absurd hr hroot
  | cons issue rest => simp only [create, hissues, hstrategy, hr]

-- Both checks have passed if a plan was made.
theorem suited_of_create {config : Config} {root : Option (Node α)} {s : Strategy} {p : Plan α}
    (hstrategy : config.strategy = .strategy s) (h : create config root = .ok p) :
    config.glyphs.issues = [] ∧ rootIssues s root = [] := by
  cases hglyphs : config.glyphs.issues with
  | cons issue rest =>
    have hissues : config.issues = issue :: rest := by
      unfold Config.issues
      rw [hstrategy, hglyphs]
      rfl
    simp [create, hissues] at h
  | nil =>
    by_cases hroot : rootIssues s root = []
    · exact ⟨rfl, hroot⟩
    · rw [create_of_unsuited hstrategy hglyphs hroot] at h
      cases h

theorem eq_fresh_of_create {config : Config} {root : Option (Node α)} {s : Strategy} {p : Plan α}
    (hstrategy : config.strategy = .strategy s) (h : create config root = .ok p) :
    p = fresh config root s := by
  rcases suited_of_create hstrategy h with ⟨hglyphs, hroot⟩
  rw [create_of_suited hstrategy hglyphs hroot] at h
  exact (Except.ok.inj h).symm

/-! ## 2. Executing a plan -/

/-- The number of visits among some calls. -/
def visits (calls : List (Event (Node α))) : Nat :=
  (calls.filterMap Event.subject?).length

theorem foldl_countVisits (calls : List (Event (Node α))) (s : σ) (n : Nat) :
    calls.foldl (fun n event => Visitor.countVisits event s n) n = n + visits calls := by
  induction calls generalizing n with
  | nil => rfl
  | cons event rest ih =>
    rw [List.foldl_cons, ih]
    cases event with
    | visit m =>
      simp only [Visitor.countVisits, visits, Event.subject?, List.filterMap_cons, List.length_cons]
      omega
    | enter => rfl
    | leave => rfl

-- Counting takes no notice of the visitor's state.
theorem countVisits_eq (s : σ) (event : Event (Node α)) (s' : σ) (n : Nat) :
    Visitor.countVisits event s' n = Visitor.countVisits event s n :=
  rfl

variable [IncludesErrors ε]

-- A walk that fails fails the execution, which leaves the plan as it was.
theorem execute_of_error {p : Plan α} {v : Visitor α ε σ} {s s' : σ} {e : ε}
    (h : p.chosen.walk v p.root s = .error e s') :
    p.execute v s = { outcome := .error e, state := (p, s') } := by
  rw [Strategy.walk_eq_follow] at h
  obtain ⟨n, hcounted⟩ : ∃ n, (v.watched Visitor.countVisits).follow (p.chosen.scriptOf p.root) ⟨s, 0⟩
      = .error e ⟨s', n⟩ :=
    Visitor.follow_watched_of_error (countVisits_eq s) v 0 h
  simp only [execute, Strategy.walk_eq_follow, hcounted]

-- A completed walk is counted, and what comes after it decides whether the count is reported.
theorem execute_eq_of_ok {p : Plan α} {v : Visitor α ε σ} {s s' : σ}
    (h : p.chosen.walk v p.root s = .ok () s') :
    let count := visits (p.chosen.scriptOf p.root).calls
    p.execute v s =
      match conclude p.config v.name (v.isBalanced s') with
      | .error e =>
        { outcome := .error (IncludesErrors.ofError e)
          state := ({ p with nodesVisited := count }, s') }
      | .ok t =>
        { outcome := .ok count
          state := ({ p with nodesVisited := count }, s')
          records := [.executed t count] } := by
  rw [Strategy.walk_eq_follow] at h
  have hcounted : (v.watched Visitor.countVisits).follow (p.chosen.scriptOf p.root) ⟨s, 0⟩
      = .ok () ⟨s', visits (p.chosen.scriptOf p.root).calls⟩ := by
    rw [Visitor.follow_watched_of_ok (countVisits_eq s) v 0 h, foldl_countVisits, Nat.zero_add]
  cases hconclude : conclude p.config v.name (v.isBalanced s') with
  | error e => simp only [execute, Strategy.walk_eq_follow, hcounted, hconclude]
  | ok t => simp only [execute, Strategy.walk_eq_follow, hcounted, hconclude]

theorem execute_of_ok {p : Plan α} {v : Visitor α ε σ} {s s' : σ}
    (h : p.chosen.walk v p.root s = .ok () s') :
    let count := visits (p.chosen.scriptOf p.root).calls
    (p.execute v s).state = ({ p with nodesVisited := count }, s') ∧
      (p.execute v s).outcome =
        match conclude p.config v.name (v.isBalanced s') with
        | .ok _ => .ok count
        | .error e => .error (IncludesErrors.ofError e) := by
  rw [execute_eq_of_ok h]
  cases conclude p.config v.name (v.isBalanced s') with
  | ok strategy => exact ⟨rfl, rfl⟩
  | error e => exact ⟨rfl, rfl⟩

-- As long as the configuration names a strategy, an unbalanced visitor is the only way to fail after a
-- completed walk.
theorem conclude_of_strategy {config : Config} {s : Strategy}
    (hstrategy : config.strategy = .strategy s) (visitor : String) (isBalanced : Bool) :
    conclude config visitor isBalanced =
      if config.requireBalanced.isTruthy && !isBalanced then .error (.unbalanced visitor s)
      else .ok s := by
  unfold conclude Config.currentStrategy
  rw [hstrategy]
  by_cases hfails : (config.requireBalanced.isTruthy && !isBalanced) = true
  · rw [if_pos hfails]
    simp [hfails, bind, Except.bind, throw, throwThe, MonadExceptOf.throw]
  · rw [if_neg hfails]
    simp [hfails, bind, Except.bind, pure, Except.pure]

-- Any other value in place of the strategy fails every execution after its walk.
theorem conclude_of_no_strategy {config : Config} (h : ∀ t, config.strategy ≠ .strategy t)
    (visitor : String) (isBalanced : Bool) :
    conclude config visitor isBalanced = .error (.notAStrategy config.strategy.kind) := by
  unfold conclude Config.currentStrategy
  cases hvalue : config.strategy with
  | strategy t => exact absurd hvalue (h t)
  | _ => rfl

-- A walk that completes and leaves its visitor balanced is all that an execution needs.
theorem execute_of_balanced {config : Config} {root : Option (Node α)} {s : Strategy}
    {v : Visitor α ε σ} {start s' : σ} (hstrategy : config.strategy = .strategy s)
    (hwalk : s.walk v root start = .ok () s') (hbalanced : v.isBalanced s' = true) :
    let run := (fresh config root s).execute v start
    run.outcome = .ok (visits (s.scriptOf root).calls) ∧ run.state.2 = s' := by
  rcases execute_of_ok (p := fresh config root s) hwalk with ⟨hstate, houtcome⟩
  have hconclude : conclude (fresh config root s).config v.name (v.isBalanced s') = .ok s := by
    rw [fresh, conclude_of_strategy hstrategy, hbalanced, Bool.not_true, Bool.and_false]
    rfl
  rw [hconclude] at houtcome
  exact ⟨houtcome, congrArg Prod.snd hstate⟩

theorem perform_of_ok {config : Config} {root : Option (Node α)} {s : Strategy} {v : Visitor α ε σ}
    {start s' : σ} (hstrategy : config.strategy = .strategy s)
    (hcreate : create config root = .ok (fresh config root s))
    (hwalk : s.walk v root start = .ok () s') (hbalanced : v.isBalanced s' = true) :
    (perform config root v start).outcome = .ok (visits (s.scriptOf root).calls) ∧
      (perform config root v start).state = s' := by
  unfold perform
  rw [hcreate]
  exact execute_of_balanced hstrategy hwalk hbalanced

theorem perform_of_walk_error {config : Config} {root : Option (Node α)} {s : Strategy}
    {v : Visitor α ε σ} {start s' : σ} {e : ε}
    (hcreate : create config root = .ok (fresh config root s))
    (hwalk : s.walk v root start = .error e s') :
    (perform config root v start).outcome = .error e ∧ (perform config root v start).state = s' := by
  have hexecute := execute_of_error (p := fresh config root s) hwalk
  simp only [perform, hcreate, hexecute, and_self]

end TreeTraversal.Plan
