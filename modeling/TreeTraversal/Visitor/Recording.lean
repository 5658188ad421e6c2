import TreeTraversal.Visitor.Collecting

/-!
# Recording visitors

A recording visitor keeps every event with the number of levels open at the time, the greatest such
number, and whether a level was ever left that had not been entered. After such an underflow the
depth goes on below zero.
-/

namespace TreeTraversal

/-- An event and the depth at which it was recorded. Both brackets of a level carry the depth outside
of it. -/
structure DepthEvent (α : Type) where
  event : Event α
  depth : Int

structure Recording (α : Type) where
  entries : Array (DepthEvent α) := #[]
  depth : Int := 0
  maxDepth : Int := 0
  underflow : Bool := false

namespace Recording

variable {α ε : Type}

def visit (a : α) (r : Recording α) : Recording α :=
  { r with entries := r.entries.push ⟨.visit a, r.depth⟩ }

def enter (r : Recording α) : Recording α :=
  { r with
    entries := r.entries.push ⟨.enter, r.depth⟩
    depth := r.depth + 1
    maxDepth := max r.maxDepth (r.depth + 1) }

/-- Records that a level was left; to do so at depth zero is an underflow. -/
def leave (r : Recording α) : Recording α :=
  { r with
    entries := r.entries.push ⟨.leave, r.depth - 1⟩
    depth := r.depth - 1
    underflow := r.underflow || r.depth == 0 }

/-- Whether the levels entered and left so far nest and are all closed. -/
def isBalanced (r : Recording α) : Bool :=
  r.depth == 0 && !r.underflow

def visited (r : Recording α) : List α :=
  r.entries.toList.filterMap fun entry => entry.event.subject?

/-- The depth at which a node with this data was visited first. -/
def depthOf (r : Recording Value) (data : Value) : Except Error Int :=
  let isVisitOfData (entry : DepthEvent Value) : Bool :=
    match entry.event.subject? with
    | some visited => visited.same data
    | none => false
  match r.entries.toList.find? isVisitOfData with
  | some entry => .ok entry.depth
  | none => .error (.notVisited data)

def visitor : Visitor α ε (Recording α) where
  name := "RecordingVisitor"
  visit n := modify (visit n.data)
  enter := modify enter
  leave := modify leave
  isBalanced := isBalanced

end Recording

end TreeTraversal
