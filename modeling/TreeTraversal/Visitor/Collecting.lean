import TreeTraversal.Visitor.Basic

/-!
# Collecting visitors

A collecting visitor keeps every event it is told of, with nodes reduced to their data. It never
fails.
-/

namespace TreeTraversal

structure Collecting (α : Type) where
  events : Array (Event α) := #[]

/-- What was visited, if the event is a visit. -/
def Event.subject? {α : Type} : Event α → Option α
  | .visit a => some a
  | .enter => none
  | .leave => none

namespace Collecting

variable {α ε : Type}

def note (event : Event α) (c : Collecting α) : Collecting α :=
  ⟨c.events.push event⟩

def visited (c : Collecting α) : List α :=
  c.events.toList.filterMap Event.subject?

def visitor : Visitor α ε (Collecting α) where
  name := "CollectingVisitor"
  visit n := modify (note (.visit n.data))
  enter := modify (note .enter)
  leave := modify (note .leave)

end Collecting

end TreeTraversal
