import TreeTraversal.Sample
import TreeTraversal.Traverse

/-!
# A tour of the library

Lists a search tree, lists the sample binary tree in five orders, and draws the sample book.
-/

namespace TreeTraversal.Demo

/-- What a part of the tour shows, and its records. -/
structure Page where
  text : String := ""
  records : List Record := []

def Page.append (p q : Page) : Page :=
  ⟨p.text ++ q.text, p.records ++ q.records⟩

def banner (title : String) : String :=
  let rule := String.ofList (List.replicate 60 '=')
  rule ++ "\n" ++ title ++ "\n" ++ rule ++ "\n"

/-- The keys of the tour's search tree, in the order in which they are inserted. -/
def keys : List Value :=
  [1, 0, 8, 6, 2, 3, 4, 5, 9].map .int

def spaced (values : List Value) : String :=
  " ".intercalate (values.map Value.text)

def searchTreePage : Page :=
  let (outcome, insertions) := SearchTree.ofList keys
  let listing :=
    match outcome with
    | .ok tree =>
      "sorted:    " ++ spaced tree.toAscending ++ "\npre-order: " ++ spaced tree.toPreorder ++ "\n"
    | .error e => e.toError.message ++ "\n"
  ⟨banner "Binary search tree" ++ listing ++ "\n", insertions.map .inserted⟩

/-- The orders of the tour, with the labels they are shown under. -/
def orders : List (String × Strategy) :=
  [("breadth first", .breadthFirst), ("pre-order", .preOrder),
   ("iterative pre", .iterativePreOrder), ("post-order", .postOrder), ("in-order", .inOrder)]

def padded (label : String) : String :=
  label ++ String.ofList (List.replicate (15 - label.length) ' ')

def orderPage (label : String) (strategy : Strategy) : Page :=
  let run : Run Error Plain Nat :=
    traverse Sample.binaryTree.tree? Plain.visitor {} (.strategy strategy)
  ⟨padded label ++ run.state.sink.contents ++ "\n", run.records⟩

def ordersPage : Page :=
  let pages := orders.map fun (label, strategy) => orderPage label strategy
  (pages.foldl Page.append ⟨banner "Binary tree orders", []⟩).append ⟨"\n", []⟩

def bookPage (glyphs : Glyphs) : Page :=
  let run := printTree Sample.book.tree? {} glyphs
  ⟨banner "Book outline" ++ run.state.contents, run.records⟩

def tour (useAscii : Bool) : Page :=
  (searchTreePage.append ordersPage).append (bookPage (if useAscii then .ascii else .boxDrawing))

end TreeTraversal.Demo
