import TreeTraversal.Proofs.SearchTree.Order
import TreeTraversal.SearchTree.Iterator

/-!
# Places in search trees

A place divides the keys of a tree into those to its left, those at it and those to its right. An
iterator keeps the places where the way to its cursor turned left: with them it finds whatever is to
the right of the cursor, in order, without a look at the rest of the tree.
-/

namespace TreeTraversal.KeyTree

variable {κ : Type} {t t' l r : KeyTree κ} {k : κ} {place way : Place}

/-! ## 1. Keys to the right of a place -/

/-- The keys to the right of a place. -/
def after (t : KeyTree κ) : Place → List κ
  | [] => []
  | .left :: way =>
    match t.subtree way with
    | empty => t.after way
    | fork _ k r => k :: r.keys ++ t.after way
  | .right :: way => t.after way

/-- The keys at a place and to the right of it. -/
def onwards (t : KeyTree κ) (place : Place) : List κ :=
  (t.subtree place).keys ++ t.after place

theorem onwards_root (t : KeyTree κ) : t.onwards [] = t.keys :=
  List.append_nil _

theorem onwards_left (h : t.subtree way = fork l k r) : t.onwards (.left :: way) = t.onwards way := by
  simp only [onwards, after, subtree, turn, h, keys]
  simp

theorem onwards_fork (h : t.subtree way = fork l k r) :
    t.onwards way = l.keys ++ k :: t.onwards (.right :: way) := by
  simp only [onwards, after, subtree, turn, h, keys]
  simp

-- What comes from a place onwards is the end of the list of all keys.
theorem onwards_suffix (t : KeyTree κ) (place : Place) : t.onwards place <:+ t.keys := by
  induction place with
  | nil => simp [onwards_root]
  | cons last way ih =>
    cases hway : t.subtree way with
    | empty =>
      -- behind an empty tree there is nothing more, whatever the turn
      have hsame : t.onwards (last :: way) = t.onwards way := by
        cases last <;> simp [onwards, after, subtree, turn, hway]
      rwa [hsame]
    | fork l k r =>
      cases last with
      | left => rwa [onwards_left hway]
      | right =>
        rw [onwards_fork hway] at ih
        have hright : t.onwards (.right :: way) <:+ l.keys ++ k :: t.onwards (.right :: way) :=
          (List.suffix_cons k _).trans (List.suffix_append l.keys _)
        exact hright.trans ih

/-! ## 2. Places that a tree has -/

/-- The tree has all forks on the way to this place. -/
def Has (t : KeyTree κ) : Place → Prop
  | [] => True
  | _ :: way => t.subtree way ≠ empty

theorem has_of_fork (h : t.subtree place = fork l k r) (last : Turn) : t.Has (last :: place) := by
  rw [Has, h]
  exact nofun

-- Nothing is found behind an empty tree, so a place that is not empty has a way of forks.
theorem has_of_ne_empty (h : t.subtree place ≠ empty) : t.Has place := by
  cases place with
  | nil => trivial
  | cons last way =>
    intro hway
    apply h
    show (t.subtree way).turn last = empty
    rw [hway]
    cases last <;> rfl

theorem turn_of_grows (h : Grows t t') (last : Turn) : Grows (t.turn last) (t'.turn last) := by
  cases h with
  | empty => cases last <;> exact .empty _
  | fork k hl hr =>
    cases last with
    | left => exact hl
    | right => exact hr

theorem subtree_of_grows (h : Grows t t') (place : Place) :
    Grows (t.subtree place) (t'.subtree place) := by
  induction place with
  | nil => exact h
  | cons last way ih => exact turn_of_grows ih last

theorem fork_of_grows (h : Grows t t') (hfork : t.subtree place = fork l k r) :
    ∃ l' r', t'.subtree place = fork l' k r' := by
  have hplace := subtree_of_grows h place
  rw [hfork] at hplace
  -- the tree at the place has to be a variable before it can be taken apart
  generalize t'.subtree place = s at hplace ⊢
  cases hplace with
  | fork k hl hr => exact ⟨_, _, rfl⟩

end TreeTraversal.KeyTree

namespace TreeTraversal.Iterator

variable {κ : Type} {t : KeyTree κ}

/-! ## 3. Pending places -/

/-- The places where the way to a place turned left, the innermost first. -/
def leftTurns : Place → List Place
  | [] => []
  | .left :: way => way :: leftTurns way
  | .right :: way => leftTurns way

-- The nearest left turn is where the keys to the right of a place begin.
theorem leftTurns_cases {place : Place} (h : t.Has place) :
    (leftTurns place = [] ∧ t.after place = []) ∨
      ∃ nearest l k r, leftTurns place = nearest :: leftTurns nearest ∧
        t.subtree nearest = .fork l k r ∧ t.after place = k :: t.onwards (.right :: nearest) := by
  induction place with
  | nil => exact .inl ⟨rfl, rfl⟩
  | cons last way ih =>
    cases last with
    | right =>
      rw [leftTurns, KeyTree.after]
      exact ih (KeyTree.has_of_ne_empty h)
    | left =>
      right
      cases hway : t.subtree way with
      | empty => exact absurd hway h
      | fork l k r =>
        refine ⟨way, l, k, r, rfl, hway, ?_⟩
        simp only [KeyTree.onwards, KeyTree.after, KeyTree.subtree, KeyTree.turn, hway]
        rfl

-- Going down the left side passes no key, and keeps as pending the places where it turned.
theorem descend_leftTurns {place : Place} (h : t.Has place) :
    ∃ bottom, descend (leftTurns place) place (t.subtree place) = leftTurns bottom ∧
      t.Has bottom ∧ t.after bottom = t.onwards place := by
  -- on the tree at the place, which is what the descent goes down
  induction hs : t.subtree place generalizing place with
  | empty =>
    refine ⟨place, rfl, h, ?_⟩
    rw [KeyTree.onwards, hs]
    rfl
  | fork l k r ihl ihr =>
    have hleft : t.subtree (.left :: place) = l := by
      rw [KeyTree.subtree, hs]
      rfl
    rcases ihl (KeyTree.has_of_fork hs .left) hleft with ⟨bottom, hdescend, hbottom, hafter⟩
    refine ⟨bottom, hdescend, hbottom, ?_⟩
    rw [hafter, KeyTree.onwards_left hs]

/-- An iterator that has kept the left turns on the way to its cursor answers the first key from there
onwards, and then stands to the right of that key. -/
theorem next_running (t : SearchTree κ) {cursor : Place} (h : t.root.Has cursor) :
    (t.root.onwards cursor = [] ∧ (running (leftTurns cursor) cursor).next t = (none, ended)) ∨
      ∃ place l k r, t.root.subtree place = .fork l k r ∧
        t.root.onwards cursor = k :: t.root.onwards (.right :: place) ∧
        (running (leftTurns cursor) cursor).next t
          = (some k, running (leftTurns place) (.right :: place)) := by
  rcases descend_leftTurns h with ⟨bottom, hdescend, hbottom, hafter⟩
  rcases leftTurns_cases hbottom with ⟨hpending, hnone⟩ | ⟨place, l, k, r, hpending, hplace, hfirst⟩
  · left
    refine ⟨by rw [← hafter, hnone], ?_⟩
    simp only [next, hdescend, hpending]
  · right
    refine ⟨place, l, k, r, hplace, by rw [← hafter, hfirst], ?_⟩
    simp only [next, hdescend, hpending, hplace]

end TreeTraversal.Iterator
