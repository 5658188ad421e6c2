import TreeTraversal.Number.Binary64

/-!
# Exact comparison of numbers

Whole numbers and doubles are compared by the values they stand for, without rounding either to the
other's type. What is not a number is neither equal to nor less than anything.
-/

namespace TreeTraversal.Number

/-- The value of a number: whole, a dyadic rational, an infinity, or none at all. -/
inductive Exact where
  | nan
  | negInfinity
  | whole (value : Int)
  | dyadic (value : Dyadic)
  | posInfinity

namespace Exact

/-- The value of a double; both zeros have the same one. -/
def ofBinary64 : Binary64 → Exact
  | .nan => .nan
  | .infinite negative => if negative then .negInfinity else .posInfinity
  | .finite negative significand exponent =>
    let signed : Int := if negative then -(significand : Int) else significand
    .dyadic (Dyadic.ofIntWithPrec signed (-exponent))

/-- Whether two numbers have the same value. -/
def same : Exact → Exact → Bool
  | .whole a, .whole b => a == b
  | .whole a, .dyadic b => decide (Dyadic.ofInt a = b)
  | .dyadic a, .whole b => decide (a = Dyadic.ofInt b)
  | .dyadic a, .dyadic b => decide (a = b)
  | .negInfinity, .negInfinity => true
  | .posInfinity, .posInfinity => true
  | _, _ => false

/-- Whether the first number is less than the second. -/
def less : Exact → Exact → Bool
  | .whole a, .whole b => decide (a < b)
  | .whole a, .dyadic b => decide (Dyadic.ofInt a < b)
  | .dyadic a, .whole b => decide (a < Dyadic.ofInt b)
  | .dyadic a, .dyadic b => decide (a < b)
  | .nan, _ => false
  | _, .nan => false
  | .posInfinity, _ => false
  | _, .negInfinity => false
  | .negInfinity, _ => true
  | _, .posInfinity => true

end Exact

end TreeTraversal.Number
