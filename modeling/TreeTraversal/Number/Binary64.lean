/-!
# Binary floating-point numbers, taken apart

A double is not a number, an infinity, or a signed integer significand times a power of two. All
exact work on doubles starts from this view.
-/

namespace TreeTraversal.Number

/-- What a double stands for. The finite case is `(-1)^negative * significand * 2^exponent`. -/
inductive Binary64 where
  | nan
  | infinite (negative : Bool)
  | finite (negative : Bool) (significand : Nat) (exponent : Int)
  deriving DecidableEq, Repr

namespace Binary64

/-- The value of the sign bit. -/
def signBit : Nat := 0x8000000000000000

/-- The value of the hidden bit, one more than the greatest fraction. -/
def hiddenBit : Nat := 0x10000000000000

/-- The number of values of the exponent field. -/
def fieldCount : Nat := 0x800

/-- The exponent of the smallest positive double. -/
def leastExponent : Int := -1074

/-- Reads sign, exponent field and fraction field. A zero exponent field has no hidden bit. -/
def ofBits (bits : Nat) : Binary64 :=
  let negative := decide (signBit ≤ bits)
  let field := bits / hiddenBit % fieldCount
  let fraction := bits % hiddenBit
  if field = fieldCount - 1 then
    if fraction = 0 then .infinite negative else .nan
  else if field = 0 then
    .finite negative fraction leastExponent
  else
    .finite negative (hiddenBit + fraction) (leastExponent + (field - 1 : Nat))

/-- The parts of a double. -/
def ofFloat (x : Float) : Binary64 :=
  ofBits x.toBits.toNat

end Binary64

end TreeTraversal.Number
