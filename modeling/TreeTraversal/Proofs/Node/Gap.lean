import TreeTraversal.Proofs.Node.Offspring

/-!
# The first node of another shape

In a tree that is not of one shape, some node of another shape comes first in pre-order. The tree
around it is a gap: a tree with one place open, which any node can be put into. All that comes before
the place is of the one shape.
-/

namespace TreeTraversal.Node

variable {α : Type} {put : Node α → Node α}

/-! ## 1. Gaps -/

/-- `put` puts a node into one place of a tree and leaves all else alone. From the root to the place
there are binary nodes only, and so there are on the left of that way. -/
inductive BinaryGap : (Node α → Node α) → Prop
  | here : BinaryGap id
  | left (d : α) (r : Option (Node α)) {put : Node α → Node α} (h : BinaryGap put) :
      BinaryGap fun x => binary d (some (put x)) r
  | right (d : α) (l : Option (Node α)) (hl : ∀ n ∈ nodesOf l, n.shape = .binary)
      {put : Node α → Node α} (h : BinaryGap put) : BinaryGap fun x => binary d l (some (put x))

/-- The nodes of a chain of siblings, each with all nodes below it. -/
def chainNodes (start : Option (Node α)) : List (Node α) :=
  (chain start).flatMap nodes

/-- `put` puts a node into one place of a chain of siblings or below one of them. From the first
sibling to the place there are linked nodes only, and so there are below those of them that the way
passes by. -/
inductive ChainGap : (Node α → Node α) → Prop
  | here : ChainGap id
  | child (d : α) (s : Option (Node α)) {put : Node α → Node α} (h : ChainGap put) :
      ChainGap fun x => linked d (some (put x)) s
  | sibling (d : α) (f : Option (Node α)) (hf : ∀ n ∈ chainNodes f, n.shape = .linked)
      {put : Node α → Node α} (h : ChainGap put) : ChainGap fun x => linked d f (some (put x))

/-- `put` puts a node into one place of a tree, which is the root or in the chain of the root's
children. -/
inductive LinkedGap : (Node α → Node α) → Prop
  | here : LinkedGap id
  | child (d : α) (s : Option (Node α)) {put : Node α → Node α} (h : ChainGap put) :
      LinkedGap fun x => linked d (some (put x)) s

/-! ## 2. What comes before the place -/

theorem chainNodes_linked (d : α) (f s : Option (Node α)) :
    chainNodes (some (linked d f s)) = linked d f s :: (chainNodes f ++ chainNodes s) := by
  unfold chainNodes
  rw [chain, List.flatMap_cons, nodes_eq, offspring, List.cons_append]

theorem chainNodes_of_not_linked {n : Node α} (h : n.shape ≠ .linked) :
    chainNodes (some n) = n.nodes := by
  cases n with
  | linked d f s => exact absurd rfl h
  | binary d l r => rw [chainNodes, chain, List.flatMap_singleton]
  | wide d isLast slots => rw [chainNodes, chain, List.flatMap_singleton]

theorem nodes_binary (d : α) (l r : Option (Node α)) :
    (binary d l r).nodes = binary d l r :: (nodesOf l ++ nodesOf r) := by
  rw [nodes_eq]
  cases l <;> cases r <;> simp [offspring, children, slots, nodesOf]

/-- Some nodes of one shape stand before a list in another. -/
def Precede (shape : Shape) (part whole : List (Node α)) : Prop :=
  ∃ before after, whole = before ++ (part ++ after) ∧ ∀ n ∈ before, n.shape = shape

theorem Precede.refl (shape : Shape) (nodes : List (Node α)) : Precede shape nodes nodes :=
  ⟨[], [], by simp, nofun⟩

-- More nodes of the shape may stand before, and anything after.
theorem Precede.extend {shape : Shape} {part middle : List (Node α)} (h : Precede shape part middle)
    (before : List (Node α)) (hbefore : ∀ n ∈ before, n.shape = shape) (after : List (Node α)) :
    Precede shape part (before ++ (middle ++ after)) := by
  rcases h with ⟨front, back, rfl, hfront⟩
  refine ⟨before ++ front, back ++ after, by simp, ?_⟩
  intro n hn
  rcases List.mem_append.mp hn with hn | hn
  · exact hbefore n hn
  · exact hfront n hn

theorem BinaryGap.precede (h : BinaryGap put) (x : Node α) :
    Precede .binary x.nodes (put x).nodes := by
  induction h with
  | here => exact .refl _ _
  | left d r _ ih =>
    rw [nodes_binary]
    exact ih.extend [_] (by simp [shape]) (nodesOf r)
  | @right d l hl put _ ih =>
    have hbefore : ∀ n ∈ binary d l (some (put x)) :: nodesOf l, n.shape = .binary :=
      List.forall_mem_cons.mpr ⟨rfl, hl⟩
    have hall := ih.extend _ hbefore []
    rw [List.append_nil] at hall
    rw [nodes_binary]
    exact hall

theorem ChainGap.precede (h : ChainGap put) (x : Node α) :
    Precede .linked (chainNodes (some x)) (chainNodes (some (put x))) := by
  induction h with
  | here => exact .refl _ _
  | child d s _ ih =>
    rw [chainNodes_linked]
    exact ih.extend [_] (by simp [shape]) (chainNodes s)
  | @sibling d f hf put _ ih =>
    have hbefore : ∀ n ∈ linked d f (some (put x)) :: chainNodes f, n.shape = .linked :=
      List.forall_mem_cons.mpr ⟨rfl, hf⟩
    have hall := ih.extend _ hbefore []
    rw [List.append_nil] at hall
    rw [chainNodes_linked]
    exact hall

theorem LinkedGap.precede (h : LinkedGap put) {x : Node α} (hx : x.shape ≠ .linked) :
    Precede .linked x.nodes (put x).nodes := by
  cases h with
  | here => exact .refl _ _
  | @child d s put hchain =>
    have hbelow := hchain.precede x
    rw [chainNodes_of_not_linked hx] at hbelow
    have hall := hbelow.extend [linked d (some (put x)) s] (by simp [shape]) []
    rw [List.append_nil] at hall
    have hnodes : (linked d (some (put x)) s).nodes
        = [linked d (some (put x)) s] ++ chainNodes (some (put x)) := by
      rw [nodes_eq]
      rfl
    rw [hnodes]
    exact hall

/-! ## 3. Finding the first node -/

/-- A tree with a node that is not binary has a first one, in a gap. -/
theorem exists_binaryGap {root : Node α} (h : ¬ root.Uniform .binary) :
    ∃ (put : Node α → Node α) (other : Node α),
      BinaryGap put ∧ root = put other ∧ other.shape ≠ .binary := by
  induction root using induction_offspring with
  | step n ih =>
    cases n with
    | linked d f s => exact ⟨id, _, .here, rfl, by simp [shape]⟩
    | wide d isLast slots => exact ⟨id, _, .here, rfl, by simp [shape]⟩
    | binary d l r =>
      by_cases hl : ∀ n ∈ nodesOf l, n.shape = .binary
      · -- the left side has none, so it is on the right
        have hr : ¬ ∀ n ∈ nodesOf r, n.shape = .binary := by
          intro hr
          apply h
          intro n hn
          rw [nodes_binary, List.mem_cons, List.mem_append] at hn
          rcases hn with rfl | hn | hn
          · rfl
          · exact hl n hn
          · exact hr n hn
        cases r with
        | none => simp [nodesOf] at hr
        | some m =>
          have hm : m ∈ (binary d l (some m)).offspring := by
            simp [offspring, children, slots]
          rcases ih m hm hr with ⟨put, other, hgap, rfl, hother⟩
          exact ⟨_, other, .right d l hl hgap, rfl, hother⟩
      · cases l with
        | none => simp [nodesOf] at hl
        | some m =>
          have hm : m ∈ (binary d (some m) r).offspring := by
            simp [offspring, children, slots]
          rcases ih m hm hl with ⟨put, other, hgap, rfl, hother⟩
          exact ⟨_, other, .left d r hgap, rfl, hother⟩

/-- What holds of a chain as soon as it holds of its first node's children and of the siblings after
that node holds of every chain. -/
theorem chain_induction {P : Option (Node α) → Prop} (hnone : P none)
    (hlinked : ∀ d f s, P f → P s → P (some (linked d f s)))
    (hother : ∀ n : Node α, n.shape ≠ .linked → P (some n)) : ∀ start, P start
  | none => hnone
  | some (linked d f s) =>
    hlinked d f s (chain_induction hnone hlinked hother f) (chain_induction hnone hlinked hother s)
  | some (binary d l r) => hother _ (by simp [shape])
  | some (wide d isLast slots) => hother _ (by simp [shape])
termination_by start => sizeOf start

/-- A chain with a node that is not linked, in it or below it, has a first one, in a gap. -/
theorem exists_chainGap {start : Option (Node α)} (h : ¬ ∀ n ∈ chainNodes start, n.shape = .linked) :
    ∃ (put : Node α → Node α) (other : Node α),
      ChainGap put ∧ start = some (put other) ∧ other.shape ≠ .linked := by
  induction start using chain_induction with
  | hnone => simp [chainNodes, chain] at h
  | hother n hn => exact ⟨id, n, .here, rfl, hn⟩
  | hlinked d f s ihf ihs =>
    by_cases hf : ∀ n ∈ chainNodes f, n.shape = .linked
    · -- there is none below the first sibling, so it is one of the others or below one of them
      have hs : ¬ ∀ n ∈ chainNodes s, n.shape = .linked := by
        intro hs
        apply h
        intro n hn
        rw [chainNodes_linked, List.mem_cons, List.mem_append] at hn
        rcases hn with rfl | hn | hn
        · rfl
        · exact hf n hn
        · exact hs n hn
      rcases ihs hs with ⟨put, other, hgap, rfl, hother⟩
      exact ⟨_, other, .sibling d f hf hgap, rfl, hother⟩
    · rcases ihf hf with ⟨put, other, hgap, rfl, hother⟩
      exact ⟨_, other, .child d s hgap, rfl, hother⟩

/-- A tree with a node that is not linked has a first one, in a gap. -/
theorem exists_linkedGap {root : Node α} (h : ¬ root.Uniform .linked) :
    ∃ (put : Node α → Node α) (other : Node α),
      LinkedGap put ∧ root = put other ∧ other.shape ≠ .linked := by
  cases root with
  | binary d l r => exact ⟨id, _, .here, rfl, by simp [shape]⟩
  | wide d isLast slots => exact ⟨id, _, .here, rfl, by simp [shape]⟩
  | linked d f s =>
    have hf : ¬ ∀ n ∈ chainNodes f, n.shape = .linked := by
      intro hf
      apply h
      intro n hn
      rw [nodes_eq, List.mem_cons] at hn
      rcases hn with rfl | hn
      · rfl
      · exact hf n hn
    rcases exists_chainGap hf with ⟨put, other, hgap, rfl, hother⟩
    exact ⟨_, other, .child d s hgap, rfl, hother⟩

end TreeTraversal.Node
