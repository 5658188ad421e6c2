import Mathlib.Data.List.Basic
import TreeTraversal.Node.View

/-!
# The tree that chains of siblings unfold to

A walk along chains follows first children and next siblings to their ends. Where these links come to
an end, what it goes through is a finite tree, and `Store.node?` reads off just that tree. The reading
keeps a table of the nodes it has finished, and it cuts circles; this module shows that the table holds
nothing but trees that the links unfold to, and that nothing is cut where there is no circle.
-/

namespace TreeTraversal.Store

variable {α : Type} {s : Store α}

/-! ## 1. Unfolding -/

/-- What a walk along chains finds at the end of a link, if the links from there on come to an end. At
a node of another shape the walk fails, so that what is behind it does not matter. -/
inductive Unfolds (s : Store α) : Option NodeId → Option (Node α) → Prop
  | none : Unfolds s none none
  | linked {id : NodeId} {data : α} {first : Option NodeId} {sibling : SiblingLink}
      {below after : Option (Node α)} (hget : s.get? id = some ⟨.linked data first, sibling⟩)
      (hfirst : Unfolds s first below) (hnext : Unfolds s sibling.next after) :
      Unfolds s (some id) (some (.linked data below after))
  | other {id : NodeId} {entry : Entry α} (hget : s.get? id = some entry)
      (hshape : entry.cell.shape ≠ .linked) :
      Unfolds s (some id) (some (s.treeOver s.stubAt entry))

theorem Unfolds.unique {link : Option NodeId} {t t' : Option (Node α)} (h : s.Unfolds link t)
    (h' : s.Unfolds link t') : t = t' := by
  induction h generalizing t' with
  | none =>
    cases h'
    rfl
  | linked hget _ _ ihfirst ihnext =>
    cases h' with
    | linked hget' hfirst' hnext' =>
      rw [hget] at hget'
      cases hget'
      rw [ihfirst hfirst', ihnext hnext']
    | other hget' hshape' =>
      rw [hget] at hget'
      cases hget'
      exact absurd rfl hshape'
  | other hget hshape =>
    cases h' with
    | linked hget' _ _ =>
      rw [hget] at hget'
      cases hget'
      exact absurd rfl hshape
    | other hget' _ =>
      rw [hget] at hget'
      cases hget'
      rfl

theorem Unfolds.isSome_eq {link : Option NodeId} {t : Option (Node α)} (h : s.Unfolds link t) :
    t.isSome = link.isSome := by
  cases h <;> rfl

/-! ## 2. The table of readings -/

/-- Whether what is behind the node's links has not been begun. -/
def Reading.isFresh : Reading α → Bool
  | .begun 0 => true
  | _ => false

/-- The number of nodes that have not been begun. -/
def fresh (readings : Readings α) : Nat :=
  readings.toList.countP Reading.isFresh

/-- A node that has been begun and not been finished. -/
def IsOpen (readings : Readings α) (id : NodeId) : Prop :=
  ∃ times, readings[id.index]? = some (.begun (times + 1))

/-- The table has a place for every node, and every tree in it is what the links unfold to. -/
structure Sound (s : Store α) (readings : Readings α) : Prop where
  size_eq : readings.size = s.entries.size
  unfolds : ∀ (id : NodeId) (tree : Node α), readings[id.index]? = some (.finished tree) →
    s.Unfolds (some id) (some tree)

theorem Sound.exists_reading {readings : Readings α} (h : Sound s readings) {id : NodeId}
    {entry : Entry α} (hget : s.get? id = some entry) :
    ∃ reading, readings[id.index]? = some reading := by
  obtain ⟨hlt, -⟩ := Array.getElem?_eq_some_iff.mp hget
  rw [← h.size_eq] at hlt
  exact ⟨_, Array.getElem?_eq_getElem hlt⟩

/-- One table after another: no node has become fresh, and none is open that was not open before. -/
structure Onward (before after : Readings α) : Prop where
  fresh_le : fresh after ≤ fresh before
  isOpen : ∀ id, IsOpen after id → IsOpen before id

theorem Onward.refl (readings : Readings α) : Onward readings readings :=
  ⟨Nat.le_refl _, fun _ h => h⟩

theorem Onward.trans {r₁ r₂ r₃ : Readings α} (h : Onward r₁ r₂) (h' : Onward r₂ r₃) :
    Onward r₁ r₃ :=
  ⟨Nat.le_trans h'.fresh_le h.fresh_le, fun id hopen => h.isOpen id (h'.isOpen id hopen)⟩

/-- The open nodes stand above a tree: what they unfold to is larger. -/
def Above (s : Store α) (readings : Readings α) (tree : Option (Node α)) : Prop :=
  ∀ id, IsOpen readings id → ∀ t, s.Unfolds (some id) t → sizeOf tree < sizeOf t

theorem Above.not_open {readings : Readings α} {tree : Option (Node α)} {id : NodeId}
    (h : Above s readings tree) (hid : s.Unfolds (some id) tree) : ¬ IsOpen readings id :=
  fun hopen => Nat.lt_irrefl _ (h id hopen tree hid)

theorem Above.onward {r r' : Readings α} {tree tree' : Option (Node α)} (h : Above s r tree)
    (honward : Onward r r') (hle : sizeOf tree' ≤ sizeOf tree) : Above s r' tree' :=
  fun id hopen t ht => Nat.lt_of_le_of_lt hle (h id (honward.isOpen id hopen) t ht)

section Updates

variable {readings : Readings α} {id : NodeId}

theorem getElem?_set (reading : Reading α) (h : id.index < readings.size) (id' : NodeId) :
    (readings.setIfInBounds id.index reading)[id'.index]?
      = if id' = id then some reading else readings[id'.index]? := by
  by_cases hid : id' = id
  · rw [if_pos hid, hid, Array.getElem?_setIfInBounds_self_of_lt h]
  · have hindex : id.index ≠ id'.index := fun h => hid (by cases id; cases id'; cases h; rfl)
    rw [if_neg hid, Array.getElem?_setIfInBounds_ne hindex]

theorem fresh_set (reading : Reading α) (h : id.index < readings.size) :
    fresh (readings.setIfInBounds id.index reading)
      = fresh readings - (if readings[id.index].isFresh then 1 else 0)
        + (if reading.isFresh then 1 else 0) := by
  unfold fresh
  rw [Array.toList_setIfInBounds, List.countP_set (by simpa using h)]
  simp

theorem fresh_pos (h : readings[id.index]? = some (.begun 0)) : 0 < fresh readings := by
  rw [← Array.getElem?_toList] at h
  exact List.countP_pos_iff.mpr ⟨_, List.mem_of_getElem? h, rfl⟩

/-- To begin a node is to have one fresh node less. -/
theorem fresh_begin (h : readings[id.index]? = some (.begun 0)) :
    fresh (readings.setIfInBounds id.index (.begun 1)) + 1 = fresh readings := by
  obtain ⟨hlt, hget⟩ := Array.getElem?_eq_some_iff.mp h
  have hpos := fresh_pos h
  rw [fresh_set _ hlt, hget]
  show fresh readings - 1 + 0 + 1 = fresh readings
  omega

theorem fresh_finish_le (tree : Node α) (h : id.index < readings.size) :
    fresh (readings.setIfInBounds id.index (.finished tree)) ≤ fresh readings := by
  rw [fresh_set _ h]
  show fresh readings - _ + 0 ≤ fresh readings
  omega

theorem Sound.begin (h : Sound s readings) (hlt : id.index < readings.size) (times : Nat) :
    Sound s (readings.setIfInBounds id.index (.begun times)) := by
  refine ⟨by rw [Array.size_setIfInBounds, h.size_eq], ?_⟩
  intro id' tree htree
  rw [getElem?_set _ hlt] at htree
  split at htree
  · cases htree
  · exact h.unfolds id' tree htree

theorem Sound.finish (h : Sound s readings) (hlt : id.index < readings.size) {tree : Node α}
    (hid : s.Unfolds (some id) (some tree)) :
    Sound s (readings.setIfInBounds id.index (.finished tree)) := by
  refine ⟨by rw [Array.size_setIfInBounds, h.size_eq], ?_⟩
  intro id' tree' htree'
  rw [getElem?_set _ hlt] at htree'
  split at htree'
  · cases htree'
    rename_i hsame
    rwa [hsame]
  · exact h.unfolds id' tree' htree'

theorem isOpen_begin (hlt : id.index < readings.size) {id' : NodeId}
    (h : IsOpen (readings.setIfInBounds id.index (.begun 1)) id') :
    id' = id ∨ IsOpen readings id' := by
  obtain ⟨times, hget⟩ := h
  rw [getElem?_set _ hlt] at hget
  split at hget
  · exact .inl ‹_›
  · exact .inr ⟨times, hget⟩

theorem Above.begin {tree tree' : Option (Node α)} (h : Above s readings tree)
    (hlt : id.index < readings.size) (hid : s.Unfolds (some id) tree)
    (htree' : sizeOf tree' < sizeOf tree) :
    Above s (readings.setIfInBounds id.index (.begun 1)) tree' := by
  intro id' hopen t ht
  rcases isOpen_begin hlt hopen with rfl | hopen
  · rwa [ht.unique hid]
  · exact Nat.lt_trans htree' (h id' hopen t ht)

-- A node that is begun and then finished is no longer open.
theorem onward_begin_finish {readings' : Readings α} (hbegun : readings[id.index]? = some (.begun 0))
    (h : Onward (readings.setIfInBounds id.index (.begun 1)) readings')
    (hsize : readings'.size = readings.size) (tree : Node α) :
    Onward readings (readings'.setIfInBounds id.index (.finished tree)) := by
  obtain ⟨hlt, -⟩ := Array.getElem?_eq_some_iff.mp hbegun
  have hlt' : id.index < readings'.size := by omega
  constructor
  · have hfinish := fresh_finish_le tree hlt'
    have hbegin := fresh_begin hbegun
    have hle := h.fresh_le
    omega
  · rintro id' ⟨times, hget⟩
    rw [getElem?_set _ hlt'] at hget
    split at hget
    · cases hget
    · rename_i hne
      exact (isOpen_begin hlt (h.isOpen id' ⟨times, hget⟩)).resolve_left hne

end Updates

/-! ## 3. Reading chains -/

/-- Follows a chain to its end and finishes the nodes passed. -/
def readChain (s : Store α) (below : Option NodeId → StateM (Readings α) (Option (Node α)))
    (limit : Nat) (passed : List (Passed α)) (start : Option NodeId) :
    StateM (Readings α) (Option (Node α)) := do
  let (passed, behind) ← s.followChain below limit passed start
  finishChain passed behind

theorem chainTree_succ (limit depth : Nat) (start : Option NodeId) :
    s.chainTree limit (depth + 1) start
      = s.readChain (s.chainTree limit depth) limit [] start := by
  rw [chainTree]
  rfl

section Chains

variable {below : Option NodeId → StateM (Readings α) (Option (Node α))} {limit : Nat}
  {passed : List (Passed α)} {readings : Readings α} {id : NodeId}

theorem readChain_none :
    s.readChain below limit passed none readings = finishChain passed none readings := by
  unfold readChain
  cases limit <;> rfl

theorem readChain_finished {tree : Node α} (h : readings[id.index]? = some (.finished tree)) :
    s.readChain below (limit + 1) passed (some id) readings
      = finishChain passed (some tree) readings := by
  simp only [readChain, followChain, bind, StateT.bind, get, getThe, MonadStateOf.get, StateT.get,
    pure, h]
  rfl

theorem readChain_other {times : Nat} {entry : Entry α}
    (h : readings[id.index]? = some (.begun times)) (hget : s.get? id = some entry)
    (hshape : entry.cell.shape ≠ .linked) :
    s.readChain below (limit + 1) passed (some id) readings
      = finishChain passed (some (s.treeOver s.stubAt entry)) readings := by
  have hglimpse : s.glimpse? id = some (s.treeOver s.stubAt entry) := by
    unfold glimpse?
    rw [hget]
    rfl
  rcases entry with ⟨cell, sibling⟩
  cases cell with
  | linked data first => exact absurd rfl hshape
  | _ =>
    simp only [readChain, followChain, bind, StateT.bind, get, getThe, MonadStateOf.get, StateT.get,
      pure, h, hget, hglimpse]
    rfl

theorem readChain_begun {data : α} {first : Option NodeId} {sibling : SiblingLink}
    (h : readings[id.index]? = some (.begun 0))
    (hget : s.get? id = some ⟨.linked data first, sibling⟩) :
    s.readChain below (limit + 1) passed (some id) readings =
      (do
        let firstTree ← below first
        s.readChain below limit (⟨id, data, firstTree⟩ :: passed) sibling.next)
        (readings.setIfInBounds id.index (.begun 1)) := by
  have hagain : 0 < rounds := by decide
  simp only [readChain, followChain, bind, StateT.bind, get, getThe, MonadStateOf.get, StateT.get,
    pure, h, hget, if_pos hagain]
  rfl

theorem finishChain_cons (node : Passed α) (behind : Option (Node α)) :
    finishChain (node :: passed) behind readings
      = finishChain passed (some (.linked node.data node.firstChild behind))
        (readings.setIfInBounds node.id.index
          (.finished (.linked node.data node.firstChild behind))) :=
  rfl

/-- A way of reading that answers what links unfold to, as long as fewer nodes than the bound are
fresh. -/
def Reads (s : Store α) (bound : Nat)
    (read : Option NodeId → StateM (Readings α) (Option (Node α))) : Prop :=
  ∀ (link : Option NodeId) (t : Option (Node α)) (readings : Readings α), s.Unfolds link t →
    Sound s readings → Above s readings t → fresh readings < bound →
      ∃ readings', read link readings = (t, readings') ∧ Sound s readings' ∧
        Onward readings readings'

/-- A chain is read to its end: what is left to do is to finish the nodes passed before it. The
induction is on the limit, which each node on the way lowers by one, as it lowers the number of fresh
nodes. -/
theorem readChain_of_unfolds {depth : Nat} (hbelow : Reads s depth below) {link : Option NodeId}
    {t : Option (Node α)} (ht : s.Unfolds link t) (hsound : Sound s readings)
    (habove : Above s readings t) (hlimit : fresh readings < limit)
    (hdepth : fresh readings ≤ depth) :
    ∃ readings', s.readChain below limit passed link readings = finishChain passed t readings' ∧
      Sound s readings' ∧ Onward readings readings' := by
  induction limit generalizing passed readings link t with
  | zero => exact absurd hlimit (Nat.not_lt_zero _)
  | succ limit ih =>
    cases ht with
    | none => exact ⟨readings, readChain_none, hsound, .refl readings⟩
    | @other id entry hget hshape =>
      have hunfolds : s.Unfolds (some id) (some (s.treeOver s.stubAt entry)) := .other hget hshape
      obtain ⟨reading, hreading⟩ := hsound.exists_reading hget
      cases reading with
      | finished tree =>
        rw [hunfolds.unique (hsound.unfolds id tree hreading)]
        exact ⟨readings, readChain_finished hreading, hsound, .refl readings⟩
      | begun times =>
        exact ⟨readings, readChain_other hreading hget hshape, hsound, .refl readings⟩
    | @linked id data first sibling under after hget hfirst hnext =>
      have hunfolds : s.Unfolds (some id) (some (.linked data under after)) :=
        .linked hget hfirst hnext
      obtain ⟨reading, hreading⟩ := hsound.exists_reading hget
      cases reading with
      | finished tree =>
        rw [hunfolds.unique (hsound.unfolds id tree hreading)]
        exact ⟨readings, readChain_finished hreading, hsound, .refl readings⟩
      | begun times =>
        cases times with
        | succ times => exact absurd ⟨times, hreading⟩ (habove.not_open hunfolds)
        | zero =>
          -- the node is begun, its children are read, then the siblings after it
          obtain ⟨hlt, -⟩ := Array.getElem?_eq_some_iff.mp hreading
          have hfresh := fresh_begin hreading
          have habove_begun : ∀ t', sizeOf t' < sizeOf (some (Node.linked data under after)) →
              Above s (readings.setIfInBounds id.index (.begun 1)) t' :=
            fun t' ht' => habove.begin hlt hunfolds ht'
          obtain ⟨r₂, hread, hsound₂, honward₂⟩ := hbelow first under _ hfirst
            (hsound.begin hlt 1) (habove_begun under (by simp; omega)) (by omega)
          have hfresh₂ := honward₂.fresh_le
          have habove₂ : Above s r₂ after :=
            (habove_begun after (by simp; omega)).onward honward₂ (Nat.le_refl _)
          obtain ⟨r₃, hrest, hsound₃, honward₃⟩ :=
            @ih (⟨id, data, under⟩ :: passed) r₂ _ _ hnext hsound₂ habove₂ (by omega) (by omega)
          have hsize : r₃.size = readings.size := hsound₃.size_eq.trans hsound.size_eq.symm
          refine ⟨r₃.setIfInBounds id.index (.finished (.linked data under after)), ?_, ?_, ?_⟩
          · rw [readChain_begun hreading hget]
            simp only [bind, StateT.bind, hread]
            rw [hrest, finishChain_cons]
          · exact hsound₃.finish (by omega) hunfolds
          · exact onward_begin_finish hreading (honward₂.trans honward₃) hsize _

end Chains

/-! ## 4. Reading nodes -/

theorem reads_chainTree {limit depth : Nat} (h : depth ≤ limit) :
    Reads s depth (s.chainTree limit depth) := by
  induction depth with
  | zero => exact fun _ _ _ _ _ _ hfresh => absurd hfresh (Nat.not_lt_zero _)
  | succ depth ih =>
    intro link t readings ht hsound habove hfresh
    have hbelow := ih (Nat.le_of_succ_le h)
    rw [chainTree_succ]
    exact readChain_of_unfolds hbelow ht hsound habove (by omega) (by omega)

/-- At the beginning every node is fresh. -/
def untouched (s : Store α) : Readings α :=
  Array.replicate s.entries.size (.begun 0)

theorem sound_untouched (s : Store α) : Sound s s.untouched := by
  refine ⟨Array.size_replicate, ?_⟩
  intro id tree h
  unfold untouched at h
  rw [Array.getElem?_replicate] at h
  split at h <;> cases h

theorem above_untouched (t : Option (Node α)) : Above s s.untouched t := by
  rintro id ⟨times, h⟩
  unfold untouched at h
  rw [Array.getElem?_replicate] at h
  split at h <;> cases h

theorem fresh_untouched (s : Store α) : fresh s.untouched = s.entries.size := by
  unfold fresh untouched
  rw [Array.toList_replicate, List.countP_replicate]
  exact if_pos rfl

/-- What is read below a first child is what its links unfold to. -/
theorem childTree_of_unfolds {first : Option NodeId} {t : Option (Node α)}
    (h : s.Unfolds first t) : s.childTree first = t := by
  cases first with
  | none =>
    cases h
    unfold childTree
    cases rounds * s.entries.size <;> rfl
  | some id =>
    -- a store with a node in it has room for all rounds
    have hpos : 0 < s.entries.size := by
      have hget : ∃ entry, s.get? id = some entry := by
        cases h with
        | linked hget _ _ => exact ⟨_, hget⟩
        | other hget _ => exact ⟨_, hget⟩
      obtain ⟨entry, hget⟩ := hget
      obtain ⟨hlt, -⟩ := Array.getElem?_eq_some_iff.mp hget
      omega
    have hfresh : fresh s.untouched < rounds * s.entries.size := by
      rw [fresh_untouched, rounds]
      omega
    obtain ⟨readings, hread, -, -⟩ := reads_chainTree (Nat.le_refl (rounds * s.entries.size))
      (some id) t s.untouched h s.sound_untouched (above_untouched t) hfresh
    show ((s.chainTree _ _ (some id)).run s.untouched).1 = t
    rw [StateT.run, hread]

theorem node?_of_unfolds {id : NodeId} {data : α} {first : Option NodeId} {sibling : SiblingLink}
    {below : Option (Node α)} (hget : s.get? id = some ⟨.linked data first, sibling⟩)
    (h : s.Unfolds first below) :
    s.node? id = some (.linked data below (s.stubAt sibling.next)) := by
  unfold node?
  rw [hget]
  show some (Node.linked data (s.childTree first) (s.stubAt sibling.next)) = _
  rw [childTree_of_unfolds h]

end TreeTraversal.Store
