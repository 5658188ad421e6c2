import TreeTraversal.Glyphs

/-!
# Configurations

How a tree is to be walked. The strategy and the balance flag may be any value: a configuration that
holds something else than a strategy is faulty, and the flag counts by its truth.
-/

namespace TreeTraversal

/-- How a tree is to be walked. -/
structure Config where
  strategy : Value := .strategy .preOrder
  glyphs : Glyphs := .boxDrawing
  /-- Whether a walk fails that leaves its visitor unbalanced. -/
  requireBalanced : Value := .bool true

namespace Config

def directory (glyphs : Glyphs := .boxDrawing) : Config :=
  { strategy := .strategy .siblingPreOrder, glyphs := glyphs }

def flat (strategy : Value := .strategy .breadthFirst) : Config :=
  { strategy := strategy }

/-- The fault of a value that stands where a strategy should. -/
def strategyIssues : Value → List ConfigIssue
  | .strategy _ => []
  | got => [.notAStrategy got]

def issues (c : Config) : List ConfigIssue :=
  strategyIssues c.strategy ++ c.glyphs.issues

/-- The strategy that the configuration holds now. -/
def currentStrategy (c : Config) : Except Error Strategy :=
  match c.strategy with
  | .strategy s => .ok s
  | got => .error (.notAStrategy got.kind)

end Config

/-- The strategy that a value asks for: the strategy itself, or the one with that alias. -/
def Strategy.ofValue : Value → Except Error Strategy
  | .strategy s => .ok s
  | .str name =>
    match ofAlias? name with
    | some s => .ok s
    | none => .error (.unknownStrategy name)
  | got => .error (.notAStrategyName got.kind)

end TreeTraversal
