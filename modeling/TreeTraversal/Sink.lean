import TreeTraversal.Error

/-!
# Sinks

A sink takes text and keeps everything written to it, in order.
-/

namespace TreeTraversal

structure Sink where
  contents : String := ""
  deriving DecidableEq, Repr

namespace Sink

def write (s : Sink) (text : String) : Sink :=
  ⟨s.contents ++ text⟩

def writeLine (s : Sink) (text : String := "") : Sink :=
  (s.write text).write "\n"

def clear (_ : Sink) : Sink :=
  ⟨""⟩

def writeValue (s : Sink) : Value → Except Error Sink
  | .str text => .ok (s.write text)
  | v => .error (.notText v.kind)

/-- Appends a value and ends the line. A value that is not text is refused before the line ends. -/
def writeLineValue (s : Sink) : Value → Except Error Sink
  | .str text => .ok (s.writeLine text)
  | v => .error (.notText v.kind)

@[simp]
theorem contents_write (s : Sink) (text : String) :
    (s.write text).contents = s.contents ++ text :=
  rfl

@[simp]
theorem contents_writeLine (s : Sink) (text : String) :
    (s.writeLine text).contents = s.contents ++ text ++ "\n" :=
  rfl

end Sink

end TreeTraversal
