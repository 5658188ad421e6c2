import TreeTraversal.Sink
import TreeTraversal.Visitor.Basic

/-!
# Plain visitors

A plain visitor writes the text of each node's data followed by a separator, and takes no notice of
levels.
-/

namespace TreeTraversal

/-- Where to write, and what to write after each node. -/
structure Plain where
  sink : Sink := {}
  separator : Value := .str " "

namespace Plain

variable {ε : Type}

def visit (data : Value) (p : Plain) : Plain :=
  { p with sink := p.sink.write (data.text ++ p.separator.text) }

def visitor : Visitor Value ε Plain where
  name := "PlainVisitor"
  visit n := modify (visit n.data)
  enter := pure ()
  leave := pure ()

end Plain

end TreeTraversal
