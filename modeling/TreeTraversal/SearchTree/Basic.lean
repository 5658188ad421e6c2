import TreeTraversal.Sink

/-!
# Search trees

An unbalanced binary tree of keys. A new key goes down from the root, left where it is less than the
key it meets and right where that is less than it; where neither is less, it is a duplicate. The
order is whatever `lt` says. It may refuse to compare two keys, and nothing else is asked of it. The
error for a duplicate quotes the key; if the key cannot be written out, that fails in its place.
-/

namespace TreeTraversal

/-- What search trees ask of their keys. -/
class SearchKey (κ : Type) (ε : outParam Type) where
  /-- Whether the first key is less than the second, if they can be compared. -/
  lt : κ → κ → Except ε Bool
  /-- Whether an error can quote the key. -/
  isWritable : κ → Bool

instance : SearchKey Value Unordered := ⟨Value.less, Value.isWritable⟩

/-- Keys at the forks of a binary tree. -/
inductive KeyTree (κ : Type) where
  | empty
  | fork (left : KeyTree κ) (key : κ) (right : KeyTree κ)

/-- Why a key was not inserted. -/
inductive InsertError (κ ε : Type) where
  /-- The key is there already. -/
  | duplicate (key : κ)
  /-- The key is there already, and the error that says so could not be made. -/
  | unwritable
  /-- The key and one that it met have no order. -/
  | incomparable (cause : ε)
  deriving DecidableEq, Repr

/-- The error for a key that is there already. -/
def InsertError.present {κ ε : Type} [SearchKey κ ε] (key : κ) : InsertError κ ε :=
  if SearchKey.isWritable key then .duplicate key else .unwritable

namespace KeyTree

variable {κ ε : Type}

def count : KeyTree κ → Nat
  | empty => 0
  | fork l _ r => l.count + 1 + r.count

/-- Puts a key at the end of its way down. -/
def insert [SearchKey κ ε] (key : κ) : KeyTree κ → Except (InsertError κ ε) (KeyTree κ)
  | empty => .ok (fork empty key empty)
  | fork l k r =>
    match SearchKey.lt key k with
    | .error e => .error (.incomparable e)
    | .ok true => (insert key l).map fun l => fork l k r
    | .ok false =>
      match SearchKey.lt k key with
      | .error e => .error (.incomparable e)
      | .ok true => (insert key r).map fun r => fork l k r
      | .ok false => .error (.present key)

/-! ## Listings -/

/-- A bound for the steps that a listing of some trees still takes. -/
def stackCount : List (KeyTree κ) → Nat
  | [] => 0
  | t :: rest => 2 * t.count + 1 + stackCount rest

/-- The keys of the trees on a stack, each tree's key before its left side and that before its right
side. -/
def preorderFrom : (stack : List (KeyTree κ)) → List κ
  | [] => []
  | empty :: rest => preorderFrom rest
  | fork l k r :: rest => k :: preorderFrom (l :: r :: rest)
termination_by stack => stackCount stack
decreasing_by
  · simp only [stackCount, count]
    omega
  · simp only [stackCount, count]
    omega

/-- The keys of a tree, each before those on its two sides. -/
def preorder (t : KeyTree κ) : List κ :=
  preorderFrom [t]

/-- A bound for the steps that an ascending listing takes over what it has kept for later. -/
def pendingCount : List (κ × KeyTree κ) → Nat
  | [] => 0
  | (_, right) :: rest => 2 * right.count + 1 + pendingCount rest

/-- Goes down the left side of a tree, keeping each key with its right side for later, and then
lists what was kept from the innermost key outwards. -/
def ascendingFrom : (pending : List (κ × KeyTree κ)) → KeyTree κ → List κ
  | pending, fork l k r => ascendingFrom ((k, r) :: pending) l
  | (k, r) :: pending, empty => k :: ascendingFrom pending r
  | [], empty => []
termination_by pending t => pendingCount pending + 2 * t.count
decreasing_by
  · simp only [pendingCount, count]
    omega
  · simp only [pendingCount, count]
    omega

/-- The keys of a tree, each after those on its left and before those on its right. -/
def ascending (t : KeyTree κ) : List κ :=
  ascendingFrom [] t

end KeyTree

/-- A search tree and the number of its keys. -/
structure SearchTree (κ : Type) where
  root : KeyTree κ := .empty
  size : Nat := 0

/-- A key that was inserted, and the size of the tree with it. -/
structure Insertion (κ : Type) where
  key : κ
  size : Nat
  deriving DecidableEq, Repr

namespace SearchTree

variable {κ ε : Type}

def isEmpty (t : SearchTree κ) : Bool :=
  match t.root with
  | .empty => true
  | .fork .. => false

/-- Inserts a key that is not there yet, and records the insertion. -/
def insert [SearchKey κ ε] (t : SearchTree κ) (key : κ) :
    Except (InsertError κ ε) (SearchTree κ × Insertion κ) :=
  (t.root.insert key).map fun root => (⟨root, t.size + 1⟩, ⟨key, t.size + 1⟩)

/-- Inserts keys one after the other up to the first that fails, with the records of the insertions
that were made. -/
def insertAll [SearchKey κ ε] (t : SearchTree κ) :
    List κ → Except (InsertError κ ε) (SearchTree κ) × List (Insertion κ)
  | [] => (.ok t, [])
  | key :: rest =>
    match t.insert key with
    | .error e => (.error e, [])
    | .ok (t, insertion) =>
      let (outcome, insertions) := t.insertAll rest
      (outcome, insertion :: insertions)

/-- A tree of the given keys, inserted in their order. -/
def ofList [SearchKey κ ε] (keys : List κ) :
    Except (InsertError κ ε) (SearchTree κ) × List (Insertion κ) :=
  insertAll {} keys

/-- The keys in pre-order. Inserted in this order they make a tree of the same shape. -/
def toPreorder (t : SearchTree κ) : List κ :=
  t.root.preorder

def toAscending (t : SearchTree κ) : List κ :=
  t.root.ascending

/-- Writes the keys in ascending order, one on a line. -/
def print (t : SearchTree Value) (sink : Sink) : Sink :=
  t.toAscending.foldl (fun sink key => sink.writeLine key.text) sink

/-- The debugging text of a tree: its keys in ascending order. -/
def literal (t : SearchTree Value) : String :=
  "BinarySearchTree(" ++ (Value.list t.toAscending).literal ++ ")"

end SearchTree

/-- The library's error for a value that was not inserted. -/
def InsertError.toError : InsertError Value Unordered → Error
  | duplicate key => .duplicateKey key
  | unwritable => .tooManyDigits
  | incomparable kinds => .unordered kinds

end TreeTraversal
