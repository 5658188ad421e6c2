import TreeTraversal.Glyphs
import TreeTraversal.Sink
import TreeTraversal.Visitor.Basic

/-!
# Directory visitors

A directory visitor draws a tree as indented lines. It sees nothing of the tree but the nodes it is
told of and the levels around them: the indent of a line is rebuilt from the levels that are open and
from whether the node visited last before each of them was a last child.

The root's line has neither indent nor branch. The level of the root's children adds nothing to the
indent, so below it there is one segment less than there are open levels.
-/

namespace TreeTraversal

structure Directory where
  sink : Sink := {}
  glyphs : Glyphs := .boxDrawing
  /-- The number of open levels. -/
  depth : Nat := 0
  /-- The pieces of the indent, the innermost first. -/
  segments : List (Option String) := []
  /-- Whether the node drawn last was a last child. -/
  lastWasLast : Bool := false

namespace Directory

variable {ε : Type}

/-- Joins the pieces of an indent that begin at the given position, outermost first. -/
def joinSegments (position : Nat) : List (Option String) → Except Error String
  | [] => .ok ""
  | none :: _ => .error (.absentSegment position)
  | some text :: rest => (joinSegments (position + 1) rest).map (text ++ ·)

/-- What the next line begins with. -/
def indent (d : Directory) : Except Error String :=
  joinSegments 0 d.segments.reverse

/-- What stands between the indent and the data: nothing on a root's line. -/
def branch (d : Directory) (isLast : Bool) : Except Error String :=
  if d.depth = 0 then
    .ok ""
  else
    match if isLast then d.glyphs.last else d.glyphs.branch with
    | some text => .ok text
    | none => .error (.notText .none)

def put (text : String) (d : Directory) : Directory :=
  { d with sink := d.sink.write text }

/-- Ends a line with the text of a node and remembers whether the node was a last child. -/
def finishLine (text : String) (isLast : Bool) (d : Directory) : Directory :=
  { d with sink := d.sink.writeLine text, lastWasLast := isLast }

/-- Opens a level. The first one leaves the indent alone. -/
def enter (d : Directory) : Directory :=
  { d with
    depth := d.depth + 1
    segments :=
      if d.depth = 0 then
        d.segments
      else
        (if d.lastWasLast then d.glyphs.blank else d.glyphs.pipe) :: d.segments }

/-- Closes a level that is open. Outside of all levels there is no indent. -/
def leave (d : Directory) : Directory :=
  { d with
    depth := d.depth - 1
    segments := if d.depth - 1 = 0 then [] else d.segments.tail }

def reset (d : Directory) : Directory :=
  { d with depth := 0, segments := [], lastWasLast := false }

def isBalanced (d : Directory) : Bool :=
  d.depth == 0

variable [IncludesErrors ε]

/-- Draws one node. Nothing is written for a node that cannot tell whether it is a last child. -/
def draw (n : Node Value) : EStateM ε Directory Unit := do
  let isLast ← Error.check n.isLastChild
  let indent ← Error.check (← get).indent
  modify (put indent)
  let branch ← Error.check ((← get).branch isLast)
  modify (put branch)
  modify (finishLine n.text isLast)

def tryLeave : EStateM ε Directory Unit := do
  if (← get).depth = 0 then
    Error.raise .unmatchedLeave
  else
    modify leave

def visitor : Visitor Value ε Directory where
  name := "DirectoryVisitor"
  visit := draw
  enter := modify enter
  leave := tryLeave
  isBalanced := isBalanced

end Directory

end TreeTraversal
