import TreeTraversal.Error

/-!
# Glyphs

The texts a directory drawing is made of. Any text will do, of any length; a glyph that is absent or
empty is a fault of the configuration that holds it.
-/

namespace TreeTraversal

structure Glyphs where
  /-- The branch to the last sibling. -/
  last : Option String := some "┗"
  /-- The branch to a sibling that others follow. -/
  branch : Option String := some "┣"
  /-- The indent under a node that siblings follow. -/
  pipe : Option String := some "┃"
  /-- The indent under a last sibling. -/
  blank : Option String := some " "
  deriving DecidableEq, Repr

namespace Glyphs

def boxDrawing : Glyphs := {}

def ascii : Glyphs := ⟨some "\x60", some "+", some "|", some " "⟩

def get (g : Glyphs) : GlyphName → Option String
  | .last => g.last
  | .branch => g.branch
  | .pipe => g.pipe
  | .blank => g.blank

def isEmptyAt (g : Glyphs) (name : GlyphName) : Bool :=
  match g.get name with
  | none => true
  | some text => text.isEmpty

/-- The faults of the glyphs, in the order in which glyphs are listed. -/
def issues (g : Glyphs) : List ConfigIssue :=
  ([.last, .branch, .pipe, .blank].filter g.isEmptyAt).map .emptyGlyph

def glyphLiteral : Option String → String
  | none => Value.none.literal
  | some text => (Value.str text).literal

def literal (g : Glyphs) : String :=
  "GlyphSet(last=" ++ glyphLiteral g.last ++ ", branch=" ++ glyphLiteral g.branch ++ ", pipe="
    ++ glyphLiteral g.pipe ++ ", blank=" ++ glyphLiteral g.blank ++ ")"

end Glyphs

end TreeTraversal
