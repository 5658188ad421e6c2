import TreeTraversal.Config
import TreeTraversal.Journal
import TreeTraversal.Walk.Basic

/-!
# Plans

A plan pairs a configuration with a root, once it is known that the configuration has no fault and
that its strategy suits the root's shape. Executing the plan walks the tree, counts the nodes that are
visited, and asks the visitor at the end whether all levels are closed.

The configuration may change after the plan is made. The walk stays the one that was chosen then; the
balance flag and the strategy named in reports are the current ones.
-/

namespace TreeTraversal

/-- What running something led to: its outcome, the state it left behind, and its records. -/
structure Run (ε σ β : Type) where
  outcome : Except ε β
  state : σ
  records : List Record := []

namespace Run

variable {ε σ τ β γ : Type}

/-- The same run, seen by its result. -/
def map (f : β → γ) (r : Run ε σ β) : Run ε σ γ :=
  ⟨r.outcome.map f, r.state, r.records⟩

/-- The same run, seen by another state. -/
def mapState (f : σ → τ) (r : Run ε σ β) : Run ε τ β :=
  ⟨r.outcome, f r.state, r.records⟩

/-- The same run, with an answer read off its final state if it succeeded. -/
def answering (r : Run ε σ β) (f : σ → γ) : Run ε σ γ :=
  r.map fun _ => f r.state

end Run

/-- A walk that was found possible. -/
structure Plan (α : Type) where
  config : Config
  root : Option (Node α)
  /-- The strategy that was chosen when the plan was made. -/
  chosen : Strategy
  /-- The number of nodes that the last completed walk visited. -/
  nodesVisited : Nat := 0

/-- A description of a plan as it is now. -/
structure PlanSummary where
  strategy : Strategy
  root : Option Shape
  chosen : Strategy
  requireBalanced : Value
  nodesVisited : Nat

namespace Plan

variable {α ε σ : Type}

/-- Why a strategy does not suit a root. -/
def shapeIssues (s : Strategy) (root : Node α) : List ShapeIssue :=
  (if s.needsBinary && root.shape != .binary then [.needs s .binary root.shape] else [])
    ++ (if s.needsLinked && root.shape != .linked then [.needs s .linked root.shape] else [])
    ++ (if !s.needsLinked && root.shape == .linked && !root.isLeaf then [.hiddenChildren s] else [])

/-- Why a strategy does not suit a tree; an empty tree suits every strategy. -/
def rootIssues (s : Strategy) : Option (Node α) → List ShapeIssue
  | none => []
  | some root => shapeIssues s root

/-- Makes a plan, unless the configuration is faulty or does not suit the root. -/
def create (config : Config) (root : Option (Node α)) : Except Error (Plan α) :=
  match config.issues, config.strategy with
  | [], .strategy s =>
    match rootIssues s root with
    | [] => .ok { config := config, root := root, chosen := s }
    | issues => .error (.unsuitedStrategy issues)
  | issues, _ => .error (.invalidConfig issues)

/-- The record of a plan that was just made. -/
def creation (p : Plan α) : Record :=
  .planned p.chosen (p.root.map Node.shape)

/-- What is left to do after a completed walk: the balance is checked and the strategy is looked up
for the report. -/
def conclude (config : Config) (visitor : String) (isBalanced : Bool) : Except Error Strategy := do
  let strategy ← config.currentStrategy
  if config.requireBalanced.isTruthy && !isBalanced then
    throw (.unbalanced visitor strategy)
  pure strategy

variable [IncludesErrors ε]

/-- Walks the tree with a visitor. A walk that fails leaves the plan as it was; a completed one sets
the number of visited nodes, whatever comes after it. -/
def execute (p : Plan α) (v : Visitor α ε σ) (s : σ) : Run ε (Plan α × σ) Nat :=
  match p.chosen.walk (v.watched Visitor.countVisits) p.root ⟨s, 0⟩ with
  | .error e w => { outcome := .error e, state := (p, w.state) }
  | .ok _ w =>
    let p := { p with nodesVisited := w.notes }
    match conclude p.config v.name (v.isBalanced w.state) with
    | .error e => { outcome := .error (IncludesErrors.ofError e), state := (p, w.state) }
    | .ok strategy =>
      { outcome := .ok w.notes, state := (p, w.state), records := [.executed strategy w.notes] }

def summary (p : Plan α) : Except Error PlanSummary := do
  let strategy ← p.config.currentStrategy
  pure {
    strategy := strategy
    root := p.root.map Node.shape
    chosen := p.chosen
    requireBalanced := p.config.requireBalanced
    nodesVisited := p.nodesVisited }

/-- Makes a plan and executes it at once. -/
def perform (config : Config) (root : Option (Node α)) (v : Visitor α ε σ) (s : σ) : Run ε σ Nat :=
  match create config root with
  | .error e => { outcome := .error (IncludesErrors.ofError e), state := s }
  | .ok p =>
    let r := p.execute v s
    { outcome := r.outcome, state := r.state.2, records := p.creation :: r.records }

end Plan

end TreeTraversal
