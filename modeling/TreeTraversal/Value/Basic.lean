import TreeTraversal.Strategy

/-!
# Values

What nodes carry, what search trees hold as keys, and what callers pass where a strategy, a separator
or a flag is expected. The kind of a value decides which operations it supports.
-/

namespace TreeTraversal

inductive Value where
  | none
  | bool (b : Bool)
  | int (i : Int)
  | float (x : Float)
  | str (s : String)
  | list (items : List Value)
  | strategy (s : Strategy)
  deriving Inhabited

inductive Kind where
  | none
  | bool
  | int
  | float
  | str
  | list
  | strategy
  deriving DecidableEq, Repr

def Kind.name : Kind → String
  | none => "NoneType"
  | bool => "bool"
  | int => "int"
  | float => "float"
  | str => "str"
  | list => "list"
  | strategy => "TraversalStrategy"

namespace Value

def kind : Value → Kind
  | none => .none
  | bool _ => .bool
  | int _ => .int
  | float _ => .float
  | str _ => .str
  | list _ => .list
  | strategy _ => .strategy

/-- Whether a value counts as true where a flag is expected: all but the empty and the zero ones do.
A float that is not a number differs from zero, so it counts as true. -/
def isTruthy : Value → Bool
  | none => false
  | bool b => b
  | int i => i != 0
  | float x => x != 0.0
  | str s => !s.isEmpty
  | list items => !items.isEmpty
  | strategy _ => true

end Value

end TreeTraversal
