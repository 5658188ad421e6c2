import TreeTraversal.Number.Exact
import TreeTraversal.Value.Basic

/-!
# Equality and order of values

Flags count as the numbers zero and one, and numbers compare by value whatever their kind. Text
compares by code point and lists by the first items that differ. No other values have an order, and
values of different kinds are never the same.
-/

namespace TreeTraversal

/-- The kinds of two values that have no order. -/
structure Unordered where
  left : Kind
  right : Kind
  deriving DecidableEq, Repr

namespace Value

/-- The number that a value is, if it is one. -/
def number? : Value → Option Number.Exact
  | bool b => some (.whole b.toInt)
  | int i => some (.whole i)
  | float x => some (.ofBinary64 (.ofFloat x))
  | _ => Option.none

def sameScalar (a b : Value) : Bool :=
  match a.number?, b.number? with
  | some x, some y => x.same y
  | _, _ =>
    match a, b with
    | none, none => true
    | str s, str t => s == t
    | strategy s, strategy t => s == t
    | _, _ => false

mutual

def same : Value → Value → Bool
  | list xs, list ys => sameItems xs ys
  | a, b => sameScalar a b

def sameItems : List Value → List Value → Bool
  | [], [] => true
  | x :: xs, y :: ys => same x y && sameItems xs ys
  | _, _ => false

end

def lessScalar (a b : Value) : Except Unordered Bool :=
  match a.number?, b.number? with
  | some x, some y => .ok (x.less y)
  | _, _ =>
    match a, b with
    | str s, str t => .ok (decide (s < t))
    | _, _ => .error ⟨a.kind, b.kind⟩

mutual

def less : Value → Value → Except Unordered Bool
  | list xs, list ys => lessItems xs ys
  | a, b => lessScalar a b

/-- Compares the first items that differ; of two lists where none does, the shorter is less. -/
def lessItems : List Value → List Value → Except Unordered Bool
  | [], [] => .ok false
  | [], _ :: _ => .ok true
  | _ :: _, [] => .ok false
  | x :: xs, y :: ys => if same x y then lessItems xs ys else less x y

end

end Value

end TreeTraversal
