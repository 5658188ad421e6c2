import TreeTraversal.Node.Basic

/-!
# Visitors

A walk tells its visitor about each node it comes to, and about each level of the tree it enters and
leaves. A visitor is three hooks on a state; each may change the state and may fail, and a failed
hook still leaves a state behind.
-/

namespace TreeTraversal

/-- A call that a walk makes: it comes to a node, goes down a level, or comes back up. -/
inductive Event (α : Type) where
  | visit (subject : α)
  | enter
  | leave
  deriving DecidableEq, Repr

/-- Hooks on states of type `σ`, for nodes with data of type `α`, that fail with errors of type `ε`. -/
structure Visitor (α ε σ : Type) where
  /-- What the visitor is called in messages. -/
  name : String
  /-- Called once for each node that is visited. -/
  visit : Node α → EStateM ε σ Unit
  /-- Called before the children of a node are walked. -/
  enter : EStateM ε σ Unit
  /-- Called after the children of a node have been walked. -/
  leave : EStateM ε σ Unit
  /-- Whether every level entered has been left. Visitors that do not care are always balanced. -/
  isBalanced : σ → Bool := fun _ => true

namespace Visitor

variable {α ε σ τ : Type}

def handle (v : Visitor α ε σ) : Event (Node α) → EStateM ε σ Unit
  | .visit n => v.visit n
  | .enter => v.enter
  | .leave => v.leave

/-- Calls the hooks for some events one after the other, up to the first that fails. -/
def replay (v : Visitor α ε σ) : List (Event (Node α)) → EStateM ε σ Unit
  | [] => pure ()
  | e :: rest => do
    v.handle e
    v.replay rest

end Visitor

/-! ## Watching a visitor -/

/-- The state of a visitor together with what somebody who watches it has noted. -/
structure Watched (σ τ : Type) where
  state : σ
  notes : τ

namespace Visitor

variable {α ε σ τ : Type}

/-- Runs a hook on the visitor's state and then takes note of the event and the new state, if the
hook did not fail. -/
def noting (note : Event (Node α) → σ → τ → τ) (event : Event (Node α))
    (hook : EStateM ε σ Unit) : EStateM ε (Watched σ τ) Unit :=
  fun w =>
    match hook w.state with
    | .ok _ s => .ok () ⟨s, note event s w.notes⟩
    | .error e s => .error e ⟨s, w.notes⟩

/-- The same visitor, watched: its hooks do to its state what they did before. -/
def watched (v : Visitor α ε σ) (note : Event (Node α) → σ → τ → τ) :
    Visitor α ε (Watched σ τ) where
  name := v.name
  visit n := noting note (.visit n) (v.visit n)
  enter := noting note .enter v.enter
  leave := noting note .leave v.leave
  isBalanced w := v.isBalanced w.state

def countVisits (event : Event (Node α)) (_ : σ) (count : Nat) : Nat :=
  match event with
  | .visit _ => count + 1
  | .enter => count
  | .leave => count

end Visitor

end TreeTraversal
