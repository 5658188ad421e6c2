import TreeTraversal.Proofs.SearchTree.Attempts

/-!
# Serialization in pre-order

Inserting the keys of a search tree in pre-order makes the same tree again. That needs no order of the
keys. It is enough that each key belongs where it is by its comparisons with the keys above it, and
these are the comparisons that were made when it was inserted. They are made again when it is inserted
a second time, because pre-order puts the keys above it before it and everything that came to stand
below it behind it.
-/

namespace TreeTraversal

variable {κ ε : Type}

namespace KeyTree

/-! ## 1. Pre-order without a stack -/

def rootFirst : KeyTree κ → List κ
  | empty => []
  | fork l k r => k :: (l.rootFirst ++ r.rootFirst)

theorem preorderFrom_eq_flatMap (stack : List (KeyTree κ)) :
    preorderFrom stack = stack.flatMap rootFirst := by
  -- a fork on the stack makes room for its two sides, which are listed where it was
  induction stack using preorderFrom.induct with
  | case1 => rw [preorderFrom, List.flatMap_nil]
  | case2 rest ih => rw [preorderFrom, ih, List.flatMap_cons, rootFirst, List.nil_append]
  | case3 l k r rest ih =>
    rw [preorderFrom, ih]
    simp only [List.flatMap_cons, rootFirst, List.cons_append, List.append_assoc]

theorem preorder_eq_rootFirst (t : KeyTree κ) : t.preorder = t.rootFirst := by
  rw [preorder, preorderFrom_eq_flatMap, List.flatMap_singleton]

theorem rootFirst_perm_keys (t : KeyTree κ) : t.rootFirst.Perm t.keys := by
  induction t with
  | empty => exact .refl _
  | fork l k r ihl ihr =>
    have hsides : (l.rootFirst ++ r.rootFirst).Perm (l.keys ++ r.keys) := ihl.append ihr
    exact (hsides.cons k).trans List.perm_middle.symm

variable [SearchKey κ ε] {key k : κ} {l r t t' : KeyTree κ}

/-! ## 2. Keys where they belong -/

/-- Every key is on the side of each key above it where it belongs. -/
inductive Placed : KeyTree κ → Prop
  | empty : Placed empty
  | fork {l r : KeyTree κ} {k : κ} (hl : Placed l) (hr : Placed r)
      (hleft : ∀ a ∈ l.keys, GoesLeft a k) (hright : ∀ b ∈ r.keys, GoesRight b k) :
      Placed (fork l k r)

theorem placed_insert (ht : t.Placed) (h : t.insert key = .ok t') : t'.Placed := by
  induction ht generalizing t' with
  | empty =>
    cases h
    exact .fork .empty .empty nofun nofun
  | @fork l r k hl hr hleft hright ihl ihr =>
    rcases insert_fork_ok h with ⟨hside, l', hins, rfl⟩ | ⟨hside, r', hins, rfl⟩
    · apply Placed.fork (ihl hins) hr ?_ hright
      intro a ha
      rw [(keys_insert_perm hins).mem_iff, List.mem_cons] at ha
      rcases ha with rfl | ha
      · exact hside
      · exact hleft a ha
    · apply Placed.fork hl (ihr hins) hleft
      intro b hb
      rw [(keys_insert_perm hins).mem_iff, List.mem_cons] at hb
      rcases hb with rfl | hb
      · exact hside
      · exact hright b hb

/-! ## 3. Inserting in pre-order -/

/-- Inserts keys one after the other up to the first that fails. -/
def insertKeys (t : KeyTree κ) (keys : List κ) : Except (InsertError κ ε) (KeyTree κ) :=
  keys.foldlM (fun t key => t.insert key) t

theorem insertKeys_cons (h : t.insert key = .ok t') (rest : List κ) :
    t.insertKeys (key :: rest) = t'.insertKeys rest := by
  unfold insertKeys
  rw [List.foldlM_cons, h]
  rfl

theorem insertKeys_append {xs : List κ} (h : t.insertKeys xs = .ok t') (ys : List κ) :
    t.insertKeys (xs ++ ys) = t'.insertKeys ys := by
  unfold insertKeys at h ⊢
  rw [List.foldlM_append, h]
  rfl

theorem exists_of_insertKeys_cons {rest : List κ} (h : t.insertKeys (key :: rest) = .ok t') :
    ∃ t₁, t.insert key = .ok t₁ ∧ t₁.insertKeys rest = .ok t' := by
  cases hins : t.insert key with
  | ok t₁ => exact ⟨t₁, rfl, by rw [← insertKeys_cons hins, h]⟩
  | error e =>
    unfold insertKeys at h
    rw [List.foldlM_cons, hins] at h
    cases h

-- Keys that go into a part of a tree one by one make of the whole what they make of the part.
theorem insertKeys_within (whole : KeyTree κ → KeyTree κ) {keys : List κ}
    (hwhole : ∀ a ∈ keys, ∀ s s', s.insert a = .ok s' → (whole s).insert a = .ok (whole s'))
    (h : t.insertKeys keys = .ok t') : (whole t).insertKeys keys = .ok (whole t') := by
  induction keys generalizing t with
  | nil =>
    cases h
    rfl
  | cons a rest ih =>
    obtain ⟨t₁, hins, hrest⟩ : ∃ t₁, t.insert a = .ok t₁ ∧ t₁.insertKeys rest = .ok t' :=
      exists_of_insertKeys_cons h
    rw [insertKeys_cons (hwhole a List.mem_cons_self t t₁ hins)]
    exact ih (fun b hb => hwhole b (List.mem_cons_of_mem a hb)) hrest

theorem insertKeys_left {keys : List κ} (hleft : ∀ a ∈ keys, GoesLeft a k) {l' : KeyTree κ}
    (h : l.insertKeys keys = .ok l') : (fork l k r).insertKeys keys = .ok (fork l' k r) := by
  apply insertKeys_within (fun s => fork s k r) _ h
  intro a ha s s' hins
  rw [insert_of_less (hleft a ha), hins]
  rfl

theorem insertKeys_right {keys : List κ} (hright : ∀ b ∈ keys, GoesRight b k) {r' : KeyTree κ}
    (h : r.insertKeys keys = .ok r') : (fork l k r).insertKeys keys = .ok (fork l k r') := by
  apply insertKeys_within (fun s => fork l k s) _ h
  intro b hb s s' hins
  rw [insert_of_greater (hright b hb).1 (hright b hb).2, hins]
  rfl

/-- Pre-order makes the root, then the left side below it, and then the right side. -/
theorem insertKeys_rootFirst (ht : t.Placed) :
    (empty : KeyTree κ).insertKeys t.rootFirst = .ok t := by
  induction ht with
  | empty => rfl
  | @fork l r k hl hr hleft hright ihl ihr =>
    have hroot : (empty : KeyTree κ).insert k = .ok (fork empty k empty) := rfl
    have hleft' : (fork empty k empty).insertKeys l.rootFirst = .ok (fork l k empty) :=
      insertKeys_left (fun a ha => hleft a (l.rootFirst_perm_keys.mem_iff.mp ha)) ihl
    have hright' : (fork l k empty).insertKeys r.rootFirst = .ok (fork l k r) :=
      insertKeys_right (fun b hb => hright b (r.rootFirst_perm_keys.mem_iff.mp hb)) ihr
    rw [rootFirst, insertKeys_cons hroot, insertKeys_append hleft', hright']

end KeyTree

namespace SearchTree

variable [SearchKey κ ε] {t : SearchTree κ}

theorem insertAll_of_insertKeys {keys : List κ} {root : KeyTree κ}
    (h : t.root.insertKeys keys = .ok root) :
    (t.insertAll keys).1 = .ok ⟨root, t.size + keys.length⟩ := by
  induction keys generalizing t with
  | nil =>
    cases h
    rfl
  | cons key rest ih =>
    obtain ⟨root₁, hins, hrest⟩ :
        ∃ root₁, t.root.insert key = .ok root₁ ∧ root₁.insertKeys rest = .ok root :=
      KeyTree.exists_of_insertKeys_cons h
    have hall := ih (t := ⟨root₁, t.size + 1⟩) hrest
    simp only [insertAll, insert_of_root hins, hall, List.length_cons]
    rw [Nat.add_right_comm, Nat.add_assoc]

/-- **Pre-order serialization round-trips.** Whatever keys are tried on an empty tree, and whatever the
comparison says of them, inserting the pre-order of the tree that results succeeds, and makes that
tree again: the same keys at the same forks, and the same size. -/
theorem ofList_toPreorder_attemptAll (keys : List κ) :
    (ofList (attemptAll ({} : SearchTree κ) keys).toPreorder).1
      = .ok (attemptAll ({} : SearchTree κ) keys) := by
  have hplaced : (attemptAll ({} : SearchTree κ) keys).root.Placed := by
    apply attemptAll_keeps (P := fun t => t.root.Placed) keys _ .empty
    intro key _ t t' ht hroot _
    exact KeyTree.placed_insert ht hroot
  have hcounted : (attemptAll ({} : SearchTree κ) keys).Counted := counted_attemptAll keys rfl
  generalize attemptAll ({} : SearchTree κ) keys = t at hplaced hcounted ⊢
  have hmade := insertAll_of_insertKeys (t := {}) (KeyTree.insertKeys_rootFirst hplaced)
  have hlength : t.root.rootFirst.length = t.size := by
    rw [t.root.rootFirst_perm_keys.length_eq, hcounted]
  rw [toPreorder, KeyTree.preorder_eq_rootFirst, ofList, hmade, hlength, Nat.zero_add]

-- A key that has no order with the first one is refused, and so is a key that is there.
example : (attemptAll ({} : SearchTree Value) [.str "b", .int 1, .str "c", .str "a", .str "b"]).toPreorder
    = [.str "b", .str "a", .str "c"] := by cbv

end SearchTree

end TreeTraversal
