import TreeTraversal.Proofs.SearchTree.OrderedSet
import TreeTraversal.Proofs.SearchTree.Serialization

/-!
# One leaf at a time

An insertion puts one leaf into a search tree, and nothing that was there moves; a key that is refused
changes nothing. Where the leaf is put depends on what the comparison says, and nothing is asked of that
here. Both listings show the new key somewhere among the others, which keep their order. The records of
the insertions count them.
-/

namespace TreeTraversal

variable {κ ε : Type}

/-! ## 1. One item more -/

/-- One list is another with an item put in somewhere. -/
def Gains (item : κ) (xs ys : List κ) : Prop :=
  ∃ before after, xs = before ++ after ∧ ys = before ++ item :: after

namespace Gains

variable {item : κ} {xs ys : List κ}

theorem singleton (item : κ) : Gains item [] [item] :=
  ⟨[], [], rfl, rfl⟩

theorem prepend (h : Gains item xs ys) (front : List κ) : Gains item (front ++ xs) (front ++ ys) := by
  rcases h with ⟨before, after, rfl, rfl⟩
  exact ⟨front ++ before, after, (List.append_assoc ..).symm, (List.append_assoc ..).symm⟩

theorem append (h : Gains item xs ys) (back : List κ) : Gains item (xs ++ back) (ys ++ back) := by
  rcases h with ⟨before, after, rfl, rfl⟩
  exact ⟨before, after ++ back, List.append_assoc .., List.append_assoc ..⟩

end Gains

namespace KeyTree

/-! ## 2. One leaf more -/

/-- One tree is another with a leaf put in where it had none. -/
inductive GainsLeaf (key : κ) : KeyTree κ → KeyTree κ → Prop
  | here : GainsLeaf key empty (fork empty key empty)
  | left {l l' : KeyTree κ} (k : κ) (r : KeyTree κ) (h : GainsLeaf key l l') :
    GainsLeaf key (fork l k r) (fork l' k r)
  | right (l : KeyTree κ) (k : κ) {r r' : KeyTree κ} (h : GainsLeaf key r r') :
    GainsLeaf key (fork l k r) (fork l k r')

variable {key : κ} {t t' : KeyTree κ}

theorem gainsLeaf_insert [SearchKey κ ε] (h : t.insert key = .ok t') : GainsLeaf key t t' := by
  induction t generalizing t' with
  | empty =>
    cases h
    exact .here
  | fork l k r ihl ihr =>
    rcases insert_fork_ok h with ⟨-, l', hl, rfl⟩ | ⟨-, r', hr, rfl⟩
    · exact .left k r (ihl hl)
    · exact .right l k (ihr hr)

theorem GainsLeaf.keys (h : GainsLeaf key t t') : Gains key t.keys t'.keys := by
  induction h with
  | here => exact .singleton key
  | left k r _ ih => exact ih.append (k :: r.keys)
  | right l k _ ih => exact (ih.prepend [k]).prepend l.keys

theorem GainsLeaf.rootFirst (h : GainsLeaf key t t') : Gains key t.rootFirst t'.rootFirst := by
  induction h with
  | here => exact .singleton key
  | left k r _ ih => exact (ih.append r.rootFirst).prepend [k]
  | right l k _ ih => exact (ih.prepend l.rootFirst).prepend [k]

end KeyTree

namespace SearchTree

variable [SearchKey κ ε] {t t' : SearchTree κ} {key : κ} {insertion : Insertion κ}

/-! ## 3. Records -/

/-- The records of attempts to insert some keys. A key that is refused leaves none. -/
def journal (t : SearchTree κ) : List κ → List (Insertion κ)
  | [] => []
  | key :: rest =>
    match t.insert key with
    | .ok (t', insertion) => insertion :: t'.journal rest
    | .error _ => t.journal rest

theorem journal_of_ok (h : t.insert key = .ok (t', insertion)) (rest : List κ) :
    t.journal (key :: rest) = insertion :: t'.journal rest := by
  simp only [journal, h]

theorem journal_of_error {e : InsertError κ ε} (h : t.insert key = .error e) (rest : List κ) :
    t.journal (key :: rest) = t.journal rest := by
  simp only [journal, h]

theorem journal_append (t : SearchTree κ) (keys others : List κ) :
    t.journal (keys ++ others) = t.journal keys ++ (t.attemptAll keys).journal others := by
  induction keys generalizing t with
  | nil => rfl
  | cons key rest ih =>
    show t.journal (key :: (rest ++ others))
      = t.journal (key :: rest) ++ ((t.attempt key).attemptAll rest).journal others
    cases hinsert : t.insert key with
    | error e =>
      rw [journal_of_error hinsert, journal_of_error hinsert, attempt_of_error hinsert]
      exact ih t
    | ok made =>
      rw [journal_of_ok hinsert, journal_of_ok hinsert, attempt_of_ok hinsert, List.cons_append, ih]

-- The accepted keys are recorded in their order, each with the size that it led to.
theorem journal_eq_zipIdx (t : SearchTree κ) (keys : List κ) :
    t.journal keys = ((t.accepted keys).zipIdx (t.size + 1)).map fun p => ⟨p.1, p.2⟩ := by
  induction keys generalizing t with
  | nil => rfl
  | cons key rest ih =>
    cases hinsert : t.insert key with
    | error e =>
      rw [journal_of_error hinsert, accepted_of_error hinsert]
      exact ih t
    | ok made =>
      rcases insert_ok hinsert with ⟨-, hsize, hinsertion⟩
      rw [journal_of_ok hinsert, accepted_of_ok hinsert, ih, hinsertion, hsize]
      rfl

-- Insertions up to the first refusal are recorded as attempts are.
theorem records_insertAll (t : SearchTree κ) (keys : List κ) :
    (t.insertAll keys).2 <+: t.journal keys ∧
      ∀ t', (t.insertAll keys).1 = .ok t' → (t.insertAll keys).2 = t.journal keys := by
  induction keys generalizing t with
  | nil => exact ⟨List.prefix_rfl, fun _ _ => rfl⟩
  | cons key rest ih =>
    cases hinsert : t.insert key with
    | error e =>
      simp only [insertAll, hinsert]
      refine ⟨List.nil_prefix, ?_⟩
      intro t' ht'
      cases ht'
    | ok made =>
      rcases ih made.1 with ⟨hstart, hall⟩
      simp only [insertAll, hinsert]
      rw [journal_of_ok hinsert]
      refine ⟨(List.prefix_cons_inj _).mpr hstart, ?_⟩
      intro t' ht'
      rw [hall t' ht']

/-! ## 4. Any attempts -/

theorem attemptAll_size (keys : List κ) :
    (attemptAll ({} : SearchTree κ) keys).size = (accepted ({} : SearchTree κ) keys).length := by
  have hcounted : (attemptAll ({} : SearchTree κ) keys).Counted := counted_attemptAll keys rfl
  rw [hcounted, (keys_perm_accepted keys).length_eq]

/-- **Insertions only ever add one key in place.** Let any keys be tried on an empty tree, and then one
more, whatever the comparison says of them. If that one is refused, the tree is what it was, and there
is no record of it. Otherwise the tree has one leaf more, which shows up somewhere in each of the two
listings, among the keys that were there and in the order they were in; and it is recorded. The size is
the length of each listing and the number of keys that were accepted, and the records are those of the
accepted keys, numbered from one. Making a tree of the keys leaves the first of these records, and all
of them if no key is refused. -/
theorem attempt_adds_one_leaf_or_nothing (keys : List κ) (key : κ) :
    let t := attemptAll ({} : SearchTree κ) keys
    let S := accepted ({} : SearchTree κ) keys
    (∀ e, t.insert key = .error e →
      t.attempt key = t ∧ journal {} (keys ++ [key]) = journal {} keys) ∧
    (∀ t' insertion, t.insert key = .ok (t', insertion) →
      t.attempt key = t' ∧
      KeyTree.GainsLeaf key t.root t'.root ∧
      Gains key t.toPreorder t'.toPreorder ∧
      Gains key t.toAscending t'.toAscending ∧
      t'.size = t.size + 1 ∧
      insertion = ⟨key, t'.size⟩ ∧
      journal {} (keys ++ [key]) = journal {} keys ++ [insertion]) ∧
    (t.size = S.length ∧ t.toPreorder.length = t.size ∧ t.toAscending.length = t.size) ∧
    journal {} keys = (S.zipIdx 1).map (fun p => ⟨p.1, p.2⟩) ∧
    (ofList keys).2 <+: journal {} keys ∧
    ∀ t', (ofList keys).1 = .ok t' → (ofList keys).2 = journal {} keys := by
  intro t S
  have hnext : journal {} (keys ++ [key]) = journal {} keys ++ t.journal [key] :=
    journal_append {} keys [key]
  have hcounted : t.Counted := counted_attemptAll keys rfl
  refine ⟨?_, ?_, ⟨attemptAll_size keys, ?_, ?_⟩, journal_eq_zipIdx {} keys,
    records_insertAll {} keys⟩
  · intro e hrefused
    refine ⟨attempt_of_error hrefused, ?_⟩
    rw [hnext, journal_of_error hrefused]
    exact List.append_nil _
  · intro t' insertion hinsert
    rcases insert_ok hinsert with ⟨hroot, hsize, hinsertion⟩
    have hleaf := KeyTree.gainsLeaf_insert hroot
    refine ⟨attempt_of_ok hinsert, hleaf, ?_, ?_, hsize, hinsertion, ?_⟩
    · rw [toPreorder, toPreorder, KeyTree.preorder_eq_rootFirst, KeyTree.preorder_eq_rootFirst]
      exact hleaf.rootFirst
    · rw [toAscending_eq_keys, toAscending_eq_keys]
      exact hleaf.keys
    · rw [hnext, journal_of_ok hinsert]
      rfl
  · rw [toPreorder, KeyTree.preorder_eq_rootFirst, t.root.rootFirst_perm_keys.length_eq, hcounted]
  · rw [toAscending_eq_keys, hcounted]

/-- Texts, with a number and a list among them that have no order with the text at the root. -/
def motley : List Value :=
  [.str "m", .int 1, .str "f", .list [], .str "f", .str "s"]

theorem motley_gains_leaf_below_root :
    ((attemptAll {} motley).insert .none = .error (.incomparable ⟨.none, .str⟩) ∧
      (attemptAll {} motley).attempt .none = attemptAll {} motley ∧
      journal {} (motley ++ [.none]) = journal {} motley) ∧
    (∃ t', (attemptAll {} motley).insert (.str "p") = .ok (t', ⟨.str "p", 4⟩) ∧
      Gains (.str "p") (attemptAll {} motley).toPreorder t'.toPreorder ∧
      Gains (.str "p") (attemptAll {} motley).toAscending t'.toAscending) ∧
    journal {} motley = [⟨.str "m", 1⟩, ⟨.str "f", 2⟩, ⟨.str "s", 3⟩] := by
  have hrefused : (attemptAll {} motley).insert .none = .error (.incomparable ⟨.none, .str⟩) := by
    rfl
  have hnone := (attempt_adds_one_leaf_or_nothing motley .none).1 _ hrefused
  have hsome := (attempt_adds_one_leaf_or_nothing motley (.str "p")).2.1 _ _ rfl
  refine ⟨⟨hrefused, hnone⟩, ⟨_, rfl, hsome.2.2.1, hsome.2.2.2.1⟩, ?_⟩
  rw [(attempt_adds_one_leaf_or_nothing motley .none).2.2.2.1]
  rfl

end SearchTree

end TreeTraversal
