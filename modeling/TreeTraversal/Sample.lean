import TreeTraversal.Node.Blueprint
import TreeTraversal.Value.Basic

/-!
# Sample trees

A small binary tree and a small book outline, with the outline's drawing.
-/

namespace TreeTraversal.Sample

open Blueprint

/-- The binary tree `a(b(d, -), c(e, f(g(-, h), -)))`. -/
def binaryTree : Blueprint Value :=
  binary (.str "a")
    (binary (.str "b") (leaf (.str "d")) hole)
    (binary (.str "c")
      (leaf (.str "e"))
      (binary (.str "f") (binary (.str "g") hole (leaf (.str "h"))) hole))

/-- A heading with what stands below it. -/
def heading (title : String) (parts : List (Blueprint Value) := []) : Blueprint Value :=
  linked (.str title) parts

/-- The outline of a book. -/
def book : Blueprint Value :=
  heading "My Book" [
    heading "Ch1" [
      heading "Section 1" [heading "This is text stored in this silly book :)"],
      heading "Section 2" [heading ":)", heading ">.<"]],
    heading "Ch2" [heading "Section 3", heading "Section 4", heading "Section 5"],
    heading "Ch3" [heading "Section 6"],
    heading "Ch4"]

/-- The lines of the book's drawing in box-drawing characters. -/
def bookLines : List String :=
  ["My Book",
   "┣Ch1",
   "┃┣Section 1",
   "┃┃┗This is text stored in this silly book :)",
   "┃┗Section 2",
   "┃ ┣:)",
   "┃ ┗>.<",
   "┣Ch2",
   "┃┣Section 3",
   "┃┣Section 4",
   "┃┗Section 5",
   "┣Ch3",
   "┃┗Section 6",
   "┗Ch4"]

/-- The drawing of the book's outline in box-drawing characters. -/
def bookDrawing : String :=
  String.join (bookLines.map (· ++ "\n"))

end TreeTraversal.Sample
