import TreeTraversal.Proofs.Walk.Seen

/-!
# Walks in the mirror

The mirror image of a tree has the slots of each node in the opposite order. Post-order on a tree is
pre-order on the mirror image, told backwards with levels left where they were entered. In-order, which
has one level before each node and one after it, is its own counterpart.
-/

namespace TreeTraversal

/-! ## 1. Hooks told backwards -/

namespace Event

variable {β : Type}

/-- The same event with entering and leaving exchanged. -/
def opposite : Event β → Event β
  | .visit b => .visit b
  | .enter => .leave
  | .leave => .enter

/-- Some events backwards, with entering and leaving exchanged. -/
def reflected (events : List (Event β)) : List (Event β) :=
  (events.map opposite).reverse

theorem reflected_append (xs ys : List (Event β)) :
    reflected (xs ++ ys) = reflected ys ++ reflected xs := by
  rw [reflected, List.map_append, List.reverse_append]
  rfl

-- What comes item by item comes backwards from the last item on.
theorem flatMap_eq_reflected {γ : Type} {f g : γ → List (Event β)} {items : List γ}
    (h : ∀ c ∈ items, f c = reflected (g c)) :
    items.flatMap f = reflected (items.reverse.flatMap g) := by
  induction items with
  | nil => rfl
  | cons c rest ih =>
    rw [List.flatMap_cons, ih fun d hd => h d (List.mem_cons_of_mem c hd), h c List.mem_cons_self,
      List.reverse_cons, List.flatMap_append, reflected_append, List.flatMap_singleton]

theorem reflected_map {γ : Type} (f : β → γ) (events : List (Event β)) :
    (reflected events).map (Event.map f) = reflected (events.map (Event.map f)) := by
  have hopposite : ∀ event : Event β, (opposite event).map f = opposite (event.map f) := fun event => by
    cases event <;> rfl
  simp [reflected, hopposite]

end Event

/-! ## 2. Mirror images -/

namespace Node

variable {α : Type} {n : Node α}

mutual

/-- The node with its slots in the opposite order, and so for all nodes that slots lead to. -/
def mirror : Node α → Node α
  | binary d l r => binary d (mirrorSlot r) (mirrorSlot l)
  | linked d f s => linked d f s
  | wide d isLast slots => wide d isLast (mirrorSlots slots).reverse

def mirrorSlot : Option (Node α) → Option (Node α)
  | none => none
  | some n => some (mirror n)

def mirrorSlots : List (Option (Node α)) → List (Option (Node α))
  | [] => []
  | slot :: rest => mirrorSlot slot :: mirrorSlots rest

end

theorem mirrorSlot_eq (slot : Option (Node α)) : mirrorSlot slot = slot.map mirror := by
  cases slot <;> rfl

theorem mirrorSlots_eq (slots : List (Option (Node α))) :
    mirrorSlots slots = slots.map (Option.map mirror) := by
  induction slots with
  | nil => rfl
  | cons slot rest ih => rw [mirrorSlots, mirrorSlot_eq, ih, List.map_cons]

@[simp]
theorem data_mirror (n : Node α) : n.mirror.data = n.data := by
  cases n <;> rfl

@[simp]
theorem shape_mirror (n : Node α) : n.mirror.shape = n.shape := by
  cases n <;> rfl

theorem slots_mirror (n : Node α) : n.mirror.slots = (n.slots.map (Option.map mirror)).reverse := by
  cases n with
  | binary d l r => simp [mirror, slots, mirrorSlot_eq]
  | linked d f s => rfl
  | wide d isLast slots => simp [mirror, Node.slots, mirrorSlots_eq]

theorem children_mirror (n : Node α) : n.mirror.children = (n.children.map mirror).reverse := by
  unfold children
  rw [slots_mirror, List.filterMap_reverse, List.filterMap_map, List.map_filterMap]
  rfl

theorem uniform_binary_mirror (h : n.Uniform .binary) : n.mirror.Uniform .binary := by
  induction n using induction_offspring with
  | step n ih =>
    obtain ⟨hshape, hbelow⟩ := uniform_iff.mp h
    have hlinked : n.mirror.shape ≠ .linked := by simp [hshape]
    rw [uniform_iff, offspring_eq_children hlinked, children_mirror, shape_mirror]
    refine ⟨hshape, fun m hm => ?_⟩
    rw [List.mem_reverse, List.mem_map] at hm
    obtain ⟨c, hc, rfl⟩ := hm
    have hoffspring := mem_offspring_of_mem_children hc
    exact ih c hoffspring (hbelow c hoffspring)

end Node

/-! ## 3. Walks that are told backwards -/

namespace Strategy

open Event

variable {α : Type} {s t : Strategy} {n : Node α}

/-- The levels of a mirror image: those of the node from the last one on, each in the mirror. -/
def mirrorLevels (levels : List (List (Node α))) : List (List (Node α)) :=
  (levels.map fun nodes => (nodes.map Node.mirror).reverse).reverse

/-- Whether a walk has the levels of a node on the other side than another walk has those of its mirror
image. -/
structure Opposed (s t : Strategy) (n : Node α) : Prop where
  before_eq : t.levelsBefore n.mirror = mirrorLevels (s.levelsAfter n)
  after_eq : t.levelsAfter n.mirror = mirrorLevels (s.levelsBefore n)

theorem opposed_postOrder_preOrder (n : Node α) : Opposed postOrder preOrder n where
  before_eq := rfl
  after_eq := by simp [levelsAfter, levelsBefore, mirrorLevels, Node.children_mirror]

theorem opposed_inOrder (h : n.Uniform .binary) : Opposed inOrder inOrder n := by
  have hshape := (Node.uniform_iff.mp h).1
  cases n with
  | linked d f s => cases hshape
  | wide d isLast slots => cases hshape
  | binary d l r => constructor <;> cases l <;> cases r <;> rfl

/-- Whether the hooks of a walk below a node are those of another walk below its mirror image, told
backwards. -/
def Reflects (s t : Strategy) (n : Node α) : Prop :=
  (s.script n).calls.map (Event.map Node.mirror) = reflected (t.script n.mirror).calls

theorem reflects_level {nodes : List (Node α)} (h : ∀ m ∈ nodes, Reflects s t m) :
    (s.levelCalls nodes).map (Event.map Node.mirror)
      = reflected (t.levelCalls (nodes.map Node.mirror).reverse) := by
  have hnodes : (nodes.flatMap fun m => (s.script m).calls.map (Event.map Node.mirror))
      = reflected (nodes.reverse.flatMap fun m => (t.script m.mirror).calls) :=
    flatMap_eq_reflected h
  have hlevel : t.levelCalls (nodes.map Node.mirror).reverse
      = [.enter] ++ (nodes.reverse.flatMap fun m => (t.script m.mirror).calls) ++ [.leave] := by
    rw [levelCalls, ← List.map_reverse, List.flatMap_map]
    rfl
  rw [hlevel, reflected_append, reflected_append, ← hnodes, levelCalls]
  simp [reflected, opposite, Event.map, List.map_flatMap]

theorem reflects_levels {levels : List (List (Node α))} (h : ∀ m ∈ levels.flatten, Reflects s t m) :
    (levels.flatMap s.levelCalls).map (Event.map Node.mirror)
      = reflected ((mirrorLevels levels).flatMap t.levelCalls) := by
  have hlevel : ∀ nodes ∈ levels, (s.levelCalls nodes).map (Event.map Node.mirror)
      = reflected (t.levelCalls (nodes.map Node.mirror).reverse) := by
    intro nodes hnodes
    apply reflects_level
    exact fun m hm => h m (List.mem_flatten.mpr ⟨nodes, hnodes, hm⟩)
  have hlevels := flatMap_eq_reflected hlevel
  rw [List.map_flatMap, hlevels, mirrorLevels, ← List.map_reverse, List.flatMap_map]

/-- Walks with their levels on opposite sides are told backwards in the mirror. The induction is on the
tree; the levels before a node become those after its image. -/
theorem reflects_of_opposed
    (hopposed : ∀ m : Node α, s.Levelled m → t.Levelled m.mirror ∧ Opposed s t m)
    (h : s.Levelled n) : Reflects s t n := by
  induction n using Node.induction_offspring with
  | step n ih =>
    obtain ⟨hmirror, hlevels⟩ := hopposed n h
    have hbelow : ∀ m ∈ s.offspring n, Reflects s t m := fun m hm =>
      ih m (mem_offspring hm) (h.of_mem_offspring hm)
    rw [offspring, List.forall_mem_append] at hbelow
    have hbefore := reflects_levels hbelow.1
    have hafter := reflects_levels hbelow.2
    have hvisit : reflected (.visit n.mirror :: (mirrorLevels (s.levelsBefore n)).flatMap t.levelCalls)
        = reflected ((mirrorLevels (s.levelsBefore n)).flatMap t.levelCalls) ++ [.visit n.mirror] :=
      reflected_append [.visit n.mirror] _
    rw [Reflects, script_of_levelled h, script_of_levelled hmirror, hlevels.before_eq,
      hlevels.after_eq, reflected_append, hvisit, ← hbefore, ← hafter]
    simp [Event.map]

/-- What a walk tells of a tree and what another walk tells of its mirror image, backwards. -/
structure MirrorImages (s t : Strategy) (root : Option (Node α)) : Prop where
  told_eq : (s.told root).1.map (Event.map Node.mirror)
    = reflected (t.told (root.map Node.mirror)).1
  heard_eq : s.heard root = reflected (t.heard (root.map Node.mirror))

theorem mirrorImages_of_reflects {root : Option (Node α)} (h : ∀ n ∈ root, Reflects s t n) :
    MirrorImages s t root := by
  have htold : (s.told root).1.map (Event.map Node.mirror)
      = reflected (t.told (root.map Node.mirror)).1 := by
    rw [told_eq_script, told_eq_script]
    cases root with
    | none => rfl
    | some n => exact h n rfl
  refine ⟨htold, ?_⟩
  -- data are the same in the mirror
  have hdata : ∀ event : Event (Node α),
      (event.map Node.mirror).map Node.data = event.map Node.data := by
    intro event
    cases event with
    | visit n => exact congrArg Event.visit n.data_mirror
    | enter => rfl
    | leave => rfl
  have hheard := congrArg (List.map (Event.map Node.data)) htold
  rw [reflected_map, List.map_map] at hheard
  rw [heard, heard, ← hheard]
  exact List.map_congr_left fun event _ => (hdata event).symm

/-- **Pre-order and post-order mirror each other, and in-order mirrors itself.** The hooks of post-order
are those of pre-order on the mirror image, backwards and with entering and leaving exchanged: the visits
are of the mirrored nodes, with the same data. On a tree of binary nodes the hooks of in-order are in the
same way those of in-order on the tree with left and right exchanged everywhere. -/
theorem walks_mirror_each_other (root : Option (Node α)) :
    MirrorImages postOrder preOrder root ∧
      ((∀ n ∈ root, n.Uniform .binary) → MirrorImages inOrder inOrder root) := by
  constructor
  · apply mirrorImages_of_reflects
    intro n _
    apply reflects_of_opposed _ (.postOrder n)
    exact fun m _ => ⟨.preOrder m.mirror, opposed_postOrder_preOrder m⟩
  · intro h
    apply mirrorImages_of_reflects
    intro n hn
    apply reflects_of_opposed _ (.inOrder (h n hn))
    intro m hm
    cases hm with
    | inOrder hm => exact ⟨.inOrder (Node.uniform_binary_mirror hm), opposed_inOrder hm⟩

/-- A binary tree that goes down to the left and then to the right. -/
def bend : Node Nat :=
  .binary 1 (some (.binary 2 none (some (.binary 3 none none)))) none

theorem bend_heard_eq_reflected :
    bend.Uniform .binary ∧
      bend.mirror = .binary 1 none (some (.binary 2 (some (.binary 3 none none)) none)) ∧
      postOrder.heard (some bend) = reflected (preOrder.heard (some bend.mirror)) ∧
      inOrder.heard (some bend) = reflected (inOrder.heard (some bend.mirror)) := by
  have hbend : bend.Uniform .binary := by
    simp [bend, Node.Uniform, Node.nodes_eq, Node.offspring, Node.children, Node.slots, Node.shape]
  obtain ⟨hslots, hsides⟩ := walks_mirror_each_other (some bend)
  have hinOrder := hsides fun n hn => by
    cases hn
    exact hbend
  exact ⟨hbend, rfl, hslots.heard_eq, hinOrder.heard_eq⟩

end Strategy

end TreeTraversal
