import TreeTraversal.Number.Layout
import TreeTraversal.Text.Quoted
import TreeTraversal.Value.Basic

/-!
# Text of values

A value has two texts: the plain one, in which text stands as it is, and the literal one, in which it
is quoted. They differ on text and strategies only, because list items are always literal.

A whole number of very many digits is not written out. Here a search tree asks for that, before it
quotes a key that it refuses; the texts themselves are those without a limit.
-/

namespace TreeTraversal.Value

/-- Floats are written out from `10^-4` up to `10^16`, with a fraction even if it is zero; beyond
that they get an exponent with a sign and at least two digits. -/
def floatLayout : Number.Layout where
  leastPositional := -4
  leastScientific := 16
  wholeSuffix := ".0"
  exponentMark := "e"
  plusSign := true
  exponentWidth := 2
  nan := "nan"
  infinity := "inf"

def floatText (x : Float) : String :=
  floatLayout.write (.ofFloat x)

mutual

/-- The text of a value in which every text is quoted. -/
def literal : Value → String
  | none => "None"
  | bool true => "True"
  | bool false => "False"
  | int i => toString i
  | float x => floatText x
  | str s => Text.quoted s
  | list items => "[" ++ ", ".intercalate (literals items) ++ "]"
  | strategy s => "<TraversalStrategy." ++ s.memberName ++ ": " ++ Text.quoted s.key ++ ">"

def literals : List Value → List String
  | [] => []
  | v :: rest => v.literal :: literals rest

end

/-- The text of a value as it is shown to a reader. -/
def text : Value → String
  | str s => s
  | strategy s => "TraversalStrategy." ++ s.memberName
  | none => literal none
  | bool b => literal (bool b)
  | int i => literal (int i)
  | float x => literal (float x)
  | list items => literal (list items)

/-- The most digits of a whole number that is written out. -/
def digitLimit : Nat := 4300

mutual

/-- Whether no whole number in the value has too many digits. -/
def isWritable : Value → Bool
  | int i => decide (i.natAbs < Nat.pow 10 digitLimit)
  | list items => areWritable items
  | none | bool _ | float _ | str _ | strategy _ => true

def areWritable : List Value → Bool
  | [] => true
  | v :: rest => v.isWritable && areWritable rest

end

end TreeTraversal.Value
