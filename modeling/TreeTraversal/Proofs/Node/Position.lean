import Mathlib.Data.List.Basic
import TreeTraversal.Proofs.Node.Offspring

/-!
# Positions in a tree

A position says how to get to a node from the root: each of its numbers picks one of the offspring of
the node that has been reached. What a tree shows at all positions is its shape, which is the set of
the positions that it has, together with a label for each node.

A listing gives the nodes in pre-order by depth and label. Nothing in it says where the offspring of a
node end, but the first entry that is not deeper than the node does. So a listing determines what the
tree shows at all positions.
-/

namespace TreeTraversal.Node

variable {α β : Type}

/-! ## 1. Positions -/

/-- The node at a position. -/
def at? (n : Node α) : List Nat → Option (Node α)
  | [] => some n
  | i :: rest => n.offspring[i]?.bind fun m => m.at? rest

/-- The label of the node at a position, if there is a node. -/
def view (label : Node α → β) (n : Node α) (position : List Nat) : Option β :=
  (n.at? position).map label

variable {label : Node α → β} {a b : Node α}

theorem view_cons (n : Node α) (i : Nat) (rest : List Nat) :
    n.view label (i :: rest) = (n.offspring.map (view label))[i]?.bind fun below => below rest := by
  rw [List.getElem?_map]
  unfold view
  rw [at?]
  cases n.offspring[i]? <;> rfl

theorem view_eq (hroot : label a = label b)
    (hbelow : a.offspring.map (view label) = b.offspring.map (view label)) :
    a.view label = b.view label := by
  funext position
  cases position with
  | nil => exact congrArg some hroot
  | cons i rest => rw [view_cons, view_cons, hbelow]

/-! ## 2. Listings -/

/-- The nodes of a tree in pre-order, each by its depth and its label. -/
def listing (label : Node α → β) (depth : Nat) (n : Node α) : List (Nat × β) :=
  (depth, label n) :: n.offspring.attach.flatMap fun ⟨m, _⟩ => listing label (depth + 1) m
termination_by sizeOf n
decreasing_by exact sizeOf_lt_of_mem_offspring ‹_›

theorem listing_eq (label : Node α → β) (depth : Nat) (n : Node α) :
    n.listing label depth = (depth, label n) :: n.offspring.flatMap (listing label (depth + 1)) := by
  rw [listing]
  simp

/-- Entries that do not begin below a depth. -/
def StartsAt (depth : Nat) (entries : List (Nat × β)) : Prop :=
  ∀ e ∈ entries.head?, e.1 ≤ depth

theorem startsAt_nil (depth : Nat) : StartsAt depth ([] : List (Nat × β)) :=
  nofun

-- What comes behind one of the offspring is the next one, or what comes behind all of them.
theorem startsAt_listings {depth : Nat} {rest : List (Nat × β)} (h : StartsAt depth rest)
    (nodes : List (Node α)) :
    StartsAt (depth + 1) (nodes.flatMap (listing label (depth + 1)) ++ rest) := by
  intro e he
  cases nodes with
  | nil =>
    have hle : e.1 ≤ depth := h e he
    omega
  | cons n others =>
    rw [List.flatMap_cons, listing_eq] at he
    cases he
    exact Nat.le_refl _

/-- The listing of a node ends where it must, whatever comes after it. -/
def Delimited (label : Node α → β) (depth : Nat) (a : Node α) : Prop :=
  ∀ (b : Node α) (rest rest' : List (Nat × β)), StartsAt depth rest → StartsAt depth rest' →
    a.listing label depth ++ rest = b.listing label depth ++ rest' →
      a.view label = b.view label ∧ rest = rest'

-- One list of offspring cannot be longer than the other, because what comes behind is not as deep.
theorem listings_delimited {depth : Nat} {xs ys : List (Node α)} {rest rest' : List (Nat × β)}
    (h : ∀ x ∈ xs, Delimited label (depth + 1) x) (hrest : StartsAt depth rest)
    (hrest' : StartsAt depth rest')
    (hsame : xs.flatMap (listing label (depth + 1)) ++ rest
      = ys.flatMap (listing label (depth + 1)) ++ rest') :
    xs.map (view label) = ys.map (view label) ∧ rest = rest' := by
  induction xs generalizing ys with
  | nil =>
    cases ys with
    | nil => exact ⟨rfl, hsame⟩
    | cons y others =>
      have hrest_eq : rest = (y :: others).flatMap (listing label (depth + 1)) ++ rest' := hsame
      rw [hrest_eq, List.flatMap_cons, listing_eq] at hrest
      have hle : depth + 1 ≤ depth := hrest _ rfl
      omega
  | cons x xs ih =>
    cases ys with
    | nil =>
      have hrest_eq : (x :: xs).flatMap (listing label (depth + 1)) ++ rest = rest' := hsame
      rw [← hrest_eq, List.flatMap_cons, listing_eq] at hrest'
      have hle : depth + 1 ≤ depth := hrest' _ rfl
      omega
    | cons y ys =>
      rw [List.flatMap_cons, List.flatMap_cons, List.append_assoc, List.append_assoc] at hsame
      obtain ⟨hview, hothers⟩ := h x List.mem_cons_self y _ _ (startsAt_listings hrest xs)
        (startsAt_listings hrest' ys) hsame
      obtain ⟨hviews, hrests⟩ := ih (fun z hz => h z (List.mem_cons_of_mem x hz)) hothers
      exact ⟨by rw [List.map_cons, List.map_cons, hview, hviews], hrests⟩

theorem listing_delimited (label : Node α → β) (depth : Nat) (a : Node α) :
    Delimited label depth a := by
  induction a using induction_offspring generalizing depth with
  | step a ih =>
    intro b rest rest' hrest hrest' hsame
    rw [listing_eq, listing_eq, List.cons_append, List.cons_append, List.cons.injEq,
      Prod.mk.injEq] at hsame
    obtain ⟨⟨-, hroot⟩, hbelow⟩ := hsame
    have hoffspring := listings_delimited (fun m hm => ih m hm (depth + 1)) hrest hrest' hbelow
    exact ⟨view_eq hroot hoffspring.1, hoffspring.2⟩

/-- Trees with the same listing have the same shape and the same labels. -/
theorem view_eq_of_listing_eq {depth : Nat} (h : a.listing label depth = b.listing label depth) :
    a.view label = b.view label := by
  have happend : a.listing label depth ++ [] = b.listing label depth ++ [] := by
    rw [h]
  exact (listing_delimited label depth a b [] [] (startsAt_nil depth) (startsAt_nil depth)
    happend).1

end TreeTraversal.Node
