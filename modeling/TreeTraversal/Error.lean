import TreeTraversal.Node.Shape
import TreeTraversal.Value.Order
import TreeTraversal.Value.Text

/-!
# Errors

Every way in which an operation of the library can fail, as a cause with the data that it concerns.
`Error.message` is the one place where causes are worded.
-/

namespace TreeTraversal

inductive GlyphName where
  | last
  | branch
  | pipe
  | blank
  deriving DecidableEq, Repr

def GlyphName.name : GlyphName → String
  | last => "last"
  | branch => "branch"
  | pipe => "pipe"
  | blank => "blank"

/-- A fault of a configuration on its own. -/
inductive ConfigIssue where
  | notAStrategy (got : Value)
  | emptyGlyph (glyph : GlyphName)

def ConfigIssue.message : ConfigIssue → String
  | notAStrategy got => "strategy must be a TraversalStrategy, got " ++ got.literal
  | emptyGlyph glyph => glyph.name ++ " glyph cannot be empty"

/-- A reason why a strategy does not suit a root. -/
inductive ShapeIssue where
  /-- The strategy reads links that the root's shape does not have. -/
  | needs (strategy : Strategy) (needed got : Shape)
  /-- The strategy asks for lists of children, which a linked root leaves empty. -/
  | hiddenChildren (strategy : Strategy)
  deriving DecidableEq, Repr

def ShapeIssue.message : ShapeIssue → String
  | needs strategy needed got =>
    strategy.key ++ " traversal requires a " ++ needed.name ++ " root, got " ++ got.name
  | hiddenChildren strategy =>
    strategy.key ++ " traversal cannot see the children of a " ++ Shape.linked.name ++ "; use "
      ++ Strategy.siblingPreOrder.key

inductive Error where
  /-- A node was asked whether it is the last child, and its shape keeps no order of siblings. -/
  | noSiblingOrder (shape : Shape)
  /-- A node was asked for a link that its shape does not have. -/
  | missingLink (shape : Shape) (link : Link)
  /-- A sibling link was to be set on a hole between two children. -/
  | holeInChain
  /-- A level was left that had not been entered. -/
  | unmatchedLeave
  /-- A walk ended while the visitor had open levels. -/
  | unbalanced (visitor : String) (strategy : Strategy)
  /-- The configuration is faulty on its own. -/
  | invalidConfig (issues : List ConfigIssue)
  /-- The strategy cannot walk a tree with this root. -/
  | unsuitedStrategy (issues : List ShapeIssue)
  /-- No strategy has this name. -/
  | unknownStrategy (name : String)
  /-- A strategy was asked for by a value that is neither a strategy nor a name. -/
  | notAStrategyName (kind : Kind)
  /-- A configuration in use holds a value that is not a strategy. -/
  | notAStrategy (kind : Kind)
  /-- The key is in the search tree already. -/
  | duplicateKey (key : Value)
  /-- An error was to quote a whole number that has too many digits. -/
  | tooManyDigits
  /-- Two values have no order. -/
  | unordered (kinds : Unordered)
  /-- A sink was given a value that is not text. -/
  | notText (kind : Kind)
  /-- An indent has an absent glyph at this position. -/
  | absentSegment (position : Nat)
  /-- No visited node carries this data. -/
  | notVisited (data : Value)

namespace Error

/-- The names that a strategy can be asked for by, as a message lists them. -/
def aliasList : String :=
  ", ".intercalate (Strategy.aliases.map Prod.fst)

/-- A message about something that was asked for an attribute it does not have. -/
def lacks (owner asked : String) : String :=
  "'" ++ owner ++ "' object has no attribute '" ++ asked ++ "'"

def message : Error → String
  | noSiblingOrder shape => shape.name ++ " does not track sibling order"
  | missingLink shape link => lacks shape.name link.name
  | holeInChain => lacks Kind.none.name Link.nextSibling.name
  | unmatchedLeave => "leave_level() called without a matching enter_level()"
  | unbalanced visitor strategy =>
    visitor ++ " finished " ++ strategy.key ++ " traversal with unbalanced levels"
  | invalidConfig issues =>
    "Invalid configuration: " ++ "; ".intercalate (issues.map ConfigIssue.message)
  | unsuitedStrategy issues =>
    "Strategy limitations: " ++ "; ".intercalate (issues.map ShapeIssue.message)
  | unknownStrategy name =>
    "Unknown traversal strategy: " ++ name ++ ". Choose from: " ++ aliasList
  | notAStrategyName kind => lacks kind.name "lower"
  | notAStrategy kind => lacks kind.name "value"
  | duplicateKey key => "Key already present in tree: " ++ key.literal
  | tooManyDigits =>
    "Exceeds the limit (" ++ toString Value.digitLimit ++ " digits) for integer string conversion; "
      ++ "use sys.set_int_max_str_digits() to increase the limit"
  | unordered kinds =>
    "'<' not supported between instances of '" ++ kinds.left.name ++ "' and '" ++ kinds.right.name
      ++ "'"
  | notText kind => "string argument expected, got '" ++ kind.name ++ "'"
  | absentSegment position =>
    "sequence item " ++ toString position ++ ": expected str instance, " ++ Kind.none.name
      ++ " found"
  | notVisited data => data.literal

end Error

/-- Types of errors that include those of the library. A visitor of a caller's own may fail with
errors of its own; the walk that drives it fails with errors of the same type. -/
class IncludesErrors (ε : Type) where
  ofError : Error → ε

instance : IncludesErrors Error := ⟨id⟩

namespace Error

variable {ε σ β : Type} [IncludesErrors ε]

/-- Fails with an error of the library and keeps the state. -/
def raise (e : Error) : EStateM ε σ β :=
  throw (IncludesErrors.ofError e)

/-- Goes on with a result, or fails with the error that stands in its place. -/
def check : Except Error β → EStateM ε σ β
  | .ok b => pure b
  | .error e => raise e

end Error

end TreeTraversal
