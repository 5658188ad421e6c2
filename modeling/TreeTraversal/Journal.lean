import TreeTraversal.Error
import TreeTraversal.SearchTree.Basic

/-!
# Journals

What the library reports for debugging: that a walk was planned, that it was executed, and that a key
was inserted. A journal is the list of such records in the order of events.
-/

namespace TreeTraversal

inductive Record where
  | planned (strategy : Strategy) (root : Option Shape)
  | executed (strategy : Strategy) (count : Nat)
  | inserted (insertion : Insertion Value)

namespace Record

def source : Record → String
  | planned .. => "treewalk.planning"
  | executed .. => "treewalk.planning"
  | inserted .. => "treewalk.bst"

def message : Record → String
  | planned strategy root =>
    "Planned " ++ strategy.key ++ " traversal over " ++ Shape.rootName root
  | executed strategy count =>
    "Executed " ++ strategy.key ++ " traversal: " ++ toString count ++ " nodes visited"
  | inserted insertion =>
    "Inserted " ++ insertion.key.literal ++ " (size=" ++ toString insertion.size ++ ")"

def line (r : Record) : String :=
  "DEBUG " ++ r.source ++ ": " ++ r.message

end Record

end TreeTraversal
