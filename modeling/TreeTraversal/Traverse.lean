import TreeTraversal.Plan
import TreeTraversal.Visitor.Directory
import TreeTraversal.Visitor.Plain
import TreeTraversal.Visitor.Recording

/-!
# Traversing trees in one call

Each function makes its own configuration, plan and visitor, and answers what the walk was for.
-/

namespace TreeTraversal

variable {α ε σ : Type} [IncludesErrors ε]

/-- Walks a tree with a visitor and answers the number of visited nodes. -/
def traverse (root : Option (Node α)) (v : Visitor α ε σ) (s : σ)
    (strategy : Value := .strategy .preOrder) (requireBalanced : Value := .bool true) :
    Run ε σ Nat :=
  match Strategy.ofValue strategy with
  | .error e => { outcome := .error (IncludesErrors.ofError e), state := s }
  | .ok strategy =>
    let config := { strategy := .strategy strategy, requireBalanced := requireBalanced : Config }
    Plan.perform config root v s

def collect (root : Option (Node α)) (strategy : Value := .strategy .preOrder) :
    Run Error (Collecting α) (List α) :=
  (traverse root Collecting.visitor {} strategy).answering Collecting.visited

/-- The data of the nodes in the order of a strategy as one text. -/
def renderFlat (root : Option (Node Value)) (strategy : Value := .strategy .breadthFirst)
    (separator : Value := .str " ") : Run Error Plain String :=
  (traverse root Plain.visitor { separator := separator } strategy).answering (·.sink.contents)

/-- The strategy that reaches all of a tree of one shape in pre-order. -/
def directoryStrategy : Option (Node α) → Strategy
  | some (.linked ..) => .siblingPreOrder
  | _ => .preOrder

/-- Draws a tree into a sink and answers the number of lines. -/
def writeTree (root : Option (Node Value)) (sink : Sink) (glyphs : Glyphs := .boxDrawing) :
    Run Error Sink Nat :=
  let config := { strategy := .strategy (directoryStrategy root), glyphs := glyphs : Config }
  (Plan.perform config root Directory.visitor { sink := sink, glyphs := glyphs }).mapState (·.sink)

def renderTree (root : Option (Node Value)) (glyphs : Glyphs := .boxDrawing) :
    Run Error Sink String :=
  (writeTree root {} glyphs).answering (·.contents)

def printTree (root : Option (Node Value)) (sink : Sink) (glyphs : Glyphs := .boxDrawing) :
    Run Error Sink Unit :=
  (writeTree root sink glyphs).map fun _ => ()

end TreeTraversal
