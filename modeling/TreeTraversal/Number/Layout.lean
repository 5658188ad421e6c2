import TreeTraversal.Number.Shortest

/-!
# Layouts of decimal numbers

A layout decides how a decimal is spelled: which magnitudes are written out and which get an
exponent, and what the exceptional numbers are called. The digits are not its business.
-/

namespace TreeTraversal.Number

/-- The spelling of decimal numbers. -/
structure Layout where
  /-- The least decimal exponent of the leading digit that is written without exponent. -/
  leastPositional : Int
  /-- The least decimal exponent of the leading digit, above that, that is written with exponent. -/
  leastScientific : Int
  /-- What follows a whole number that is written without exponent. -/
  wholeSuffix : String
  /-- What stands between the digits and the exponent. -/
  exponentMark : String
  /-- Whether an exponent that is not negative has a plus sign. -/
  plusSign : Bool
  /-- The least number of digits of an exponent. -/
  exponentWidth : Nat
  /-- The name of a result that is not a number. -/
  nan : String
  /-- The name of infinity, without its sign. -/
  infinity : String

namespace Layout

/-- Zeros, as many as asked for. -/
def zeros (n : Nat) : String :=
  String.ofList (List.replicate n '0')

/-- An exponent with its sign, padded to the layout's width. -/
def exponentText (l : Layout) (e : Int) : String :=
  let digits := toString e.natAbs
  let sign := if e < 0 then "-" else if l.plusSign then "+" else ""
  sign ++ zeros (l.exponentWidth - digits.length) ++ digits

/-- Digits with a point before the one that has place `places` from the left, filled with zeros on
the side where digits are missing. -/
def positional (l : Layout) (digits : String) (places : Int) : String :=
  if places ≤ 0 then
    "0." ++ zeros (-places).toNat ++ digits
  else
    let cs := digits.toList
    let places := places.toNat
    if cs.length ≤ places then
      digits ++ zeros (places - cs.length) ++ l.wholeSuffix
    else
      String.ofList (cs.take places) ++ "." ++ String.ofList (cs.drop places)

/-- One digit before the point, then the exponent of that digit. -/
def scientific (l : Layout) (digits : String) (leading : Int) : String :=
  let mantissa :=
    match digits.toList with
    | [] => ""
    | [c] => String.ofList [c]
    | c :: rest => String.ofList (c :: '.' :: rest)
  mantissa ++ l.exponentMark ++ l.exponentText leading

/-- A decimal that is not negative. -/
def unsigned (l : Layout) (d : Decimal) : String :=
  let digits := toString d.digits
  let leading := d.exponent + digits.length - 1
  if d.digits = 0 then
    l.positional digits 1
  else if l.leastPositional ≤ leading && leading < l.leastScientific then
    l.positional digits (leading + 1)
  else
    l.scientific digits leading

/-- The text of a double, with the fewest digits that read back as it. -/
def write (l : Layout) (x : Binary64) : String :=
  let signed (negative : Bool) (text : String) := if negative then "-" ++ text else text
  match x with
  | .nan => l.nan
  | .infinite negative => signed negative l.infinity
  | .finite negative significand exponent =>
    signed negative (l.unsigned (shortest significand exponent))

end Layout

end TreeTraversal.Number
