import TreeTraversal.Config
import TreeTraversal.Demo
import TreeTraversal.Error
import TreeTraversal.Glyphs
import TreeTraversal.Journal
import TreeTraversal.Main
import TreeTraversal.Node.Basic
import TreeTraversal.Node.Blueprint
import TreeTraversal.Node.ChildCursor
import TreeTraversal.Node.Shape
import TreeTraversal.Node.Store
import TreeTraversal.Node.View
import TreeTraversal.Number.Binary64
import TreeTraversal.Number.Exact
import TreeTraversal.Number.Layout
import TreeTraversal.Number.Shortest
import TreeTraversal.Plan
import TreeTraversal.Proofs.Drawing.Exact
import TreeTraversal.Proofs.Drawing.Indent
import TreeTraversal.Proofs.Drawing.Line
import TreeTraversal.Proofs.Node.Offspring
import TreeTraversal.Proofs.Plan.Execution
import TreeTraversal.Proofs.Plan.ShapeCheck
import TreeTraversal.Proofs.SearchTree.Attempts
import TreeTraversal.Proofs.SearchTree.LazyIteration
import TreeTraversal.Proofs.SearchTree.Order
import TreeTraversal.Proofs.SearchTree.OrderedSet
import TreeTraversal.Proofs.SearchTree.Place
import TreeTraversal.Proofs.SearchTree.Serialization
import TreeTraversal.Proofs.SearchTree.Standing
import TreeTraversal.Proofs.Visitor.History
import TreeTraversal.Proofs.Visitor.Watched
import TreeTraversal.Proofs.Walk.Script
import TreeTraversal.Proofs.Walk.Transparency
import TreeTraversal.Proofs.Walk.Visited
import TreeTraversal.Sample
import TreeTraversal.SearchTree.Basic
import TreeTraversal.SearchTree.Iterator
import TreeTraversal.Sink
import TreeTraversal.Strategy
import TreeTraversal.Text.Printable
import TreeTraversal.Text.Quoted
import TreeTraversal.Text.Unprintable
import TreeTraversal.Traverse
import TreeTraversal.Value.Basic
import TreeTraversal.Value.Order
import TreeTraversal.Value.Text
import TreeTraversal.Visitor.Basic
import TreeTraversal.Visitor.Collecting
import TreeTraversal.Visitor.Directory
import TreeTraversal.Visitor.Plain
import TreeTraversal.Visitor.Recording
import TreeTraversal.Walk.Basic
import TreeTraversal.Walk.Bracketed
import TreeTraversal.Walk.Worklist
import TreeTraversal.Proofs.Drawing.Rendering
import TreeTraversal.Proofs.Node.Position
import TreeTraversal.Proofs.Drawing.Reading
import TreeTraversal.Proofs.Plan.HiddenNodes
import TreeTraversal.Proofs.Walk.Nesting
import TreeTraversal.Proofs.Visitor.Levels
import TreeTraversal.Proofs.Plan.Balance
import TreeTraversal.Proofs.Plan.Bookkeeping
import TreeTraversal.Proofs.Node.Cycles
import TreeTraversal.Proofs.Node.Descendants
import TreeTraversal.Proofs.Walk.Stack
import TreeTraversal.Proofs.Walk.Generations
import TreeTraversal.Proofs.SearchTree.Leaves
import TreeTraversal.Proofs.Plan.Listing
import TreeTraversal.Proofs.SearchTree.Mirror
import TreeTraversal.Proofs.Node.Gap
import TreeTraversal.Proofs.Walk.Interrupted
import TreeTraversal.Proofs.Drawing.BrokenOff
import TreeTraversal.Proofs.Walk.Levelled
import TreeTraversal.Proofs.Visitor.Depths
import TreeTraversal.Proofs.Walk.Ancestry
import TreeTraversal.Proofs.Node.OrderedTree
import TreeTraversal.Proofs.Walk.Seen
import TreeTraversal.Proofs.Walk.Decoding
import TreeTraversal.Proofs.Walk.Reflection
import TreeTraversal.Proofs.Drawing.Appending
import TreeTraversal.Proofs.Plan.OneCall
import TreeTraversal.Proofs.Node.Assembly
import TreeTraversal.Proofs.Drawing.Ordered
import TreeTraversal.Proofs.Drawing.Encodings
import TreeTraversal.Proofs.Walk.Brackets
import TreeTraversal.Proofs.Drawing.AnyUse
import TreeTraversal.Proofs.Visitor.LevelCounts
