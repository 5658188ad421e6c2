import Mathlib.Algebra.Group.Int.Defs
import TreeTraversal.Proofs.SearchTree.Attempts

/-!
# Search trees as finite sets

With keys that a comparison puts in a strict total order, a search tree is the set of the keys that it
has accepted. It lists them in ascending order, counts them, and refuses a key only because it is
there. The error for that quotes the key, so it is another one for a whole number of too many digits.
How the keys came in shows in the shape of the tree and nowhere else.
-/

namespace TreeTraversal

variable {κ ε : Type}

/-! ## 1. Ascending listings -/

namespace KeyTree

theorem ascendingFrom_eq (pending : List (κ × KeyTree κ)) (t : KeyTree κ) :
    ascendingFrom pending t = t.keys ++ pending.flatMap fun later => later.1 :: later.2.keys := by
  -- what is kept for later are keys with their right sides, the innermost first
  induction pending, t using ascendingFrom.induct with
  | case1 pending l k r ih =>
    rw [ascendingFrom, ih, List.flatMap_cons, keys]
    simp only [List.append_assoc, List.cons_append]
  | case2 k r pending ih =>
    rw [ascendingFrom, ih, List.flatMap_cons]
    simp only [keys, List.nil_append, List.cons_append]
  | case3 =>
    rw [ascendingFrom]
    rfl

variable [SearchKey κ ε] {K : κ → Prop} {key : κ} {t t' : KeyTree κ}

theorem Ordered.nodup (hK : StrictTotalOn K) (ht : t.Ordered K) : t.keys.Nodup := by
  apply ht.ascending.imp_of_mem
  intro a b ha _ hab hsame
  rw [hsame] at ha hab
  exact hK.irrefl (ht.mem_set b ha) hab

-- A key that was added was not there before.
theorem not_mem_keys_of_insert (hK : StrictTotalOn K) (ht' : t'.Ordered K)
    (h : t.insert key = .ok t') : key ∉ t.keys := by
  have hnodup : (key :: t.keys).Nodup := (keys_insert_perm h).nodup_iff.mp (ht'.nodup hK)
  exact (List.nodup_cons.mp hnodup).1

-- Two ordered trees with the same keys list them in the same way.
theorem Ordered.keys_eq (hK : StrictTotalOn K) (ht : t.Ordered K) (ht' : t'.Ordered K)
    (hsame : ∀ k, k ∈ t.keys ↔ k ∈ t'.keys) : t.keys = t'.keys := by
  have hperm : t.keys.Perm t'.keys :=
    (List.perm_ext_iff_of_nodup (ht.nodup hK) (ht'.nodup hK)).mpr hsame
  apply hperm.eq_of_pairwise _ ht.ascending ht'.ascending
  intro a b ha hb hab hba
  exact absurd hba (hK.asymm (ht.mem_set a ha) (ht'.mem_set b hb) hab)

end KeyTree

namespace SearchTree

theorem toAscending_eq_keys (t : SearchTree κ) : t.toAscending = t.root.keys := by
  rw [toAscending, KeyTree.ascending, KeyTree.ascendingFrom_eq, List.flatMap_nil, List.append_nil]

theorem isEmpty_eq_false_iff (t : SearchTree κ) : t.isEmpty = false ↔ t.root.keys ≠ [] := by
  unfold isEmpty
  cases t.root with
  | empty => simp [KeyTree.keys]
  | fork l k r => simp [KeyTree.keys]

end SearchTree

/-! ## 2. Refusals -/

theorem isWritable_int_iff (i : Int) :
    SearchKey.isWritable (Value.int i) = true ↔ i.natAbs < Nat.pow 10 Value.digitLimit := by
  simp only [SearchKey.isWritable, Value.isWritable, decide_eq_true_eq]

theorem isWritable_str (s : String) : SearchKey.isWritable (Value.str s) = true :=
  rfl

namespace InsertError

variable [SearchKey κ ε] (key : κ)

theorem present_eq_duplicate_iff :
    (present key : InsertError κ ε) = .duplicate key ↔ SearchKey.isWritable key = true := by
  unfold present
  by_cases h : SearchKey.isWritable key = true
  · rw [if_pos h]
    exact iff_of_true rfl h
  · rw [if_neg h]
    exact iff_of_false nofun h

theorem present_eq_unwritable_iff :
    (present key : InsertError κ ε) = .unwritable ↔ SearchKey.isWritable key = false := by
  unfold present
  rw [← Bool.not_eq_true]
  by_cases h : SearchKey.isWritable key = true
  · rw [if_pos h]
    exact iff_of_false nofun (not_not_intro h)
  · rw [if_neg h]
    exact iff_of_true rfl h

end InsertError

namespace SearchTree

/-! ## 3. What any attempts make -/

variable [SearchKey κ ε] {K : κ → Prop} {keys : List κ} {t : SearchTree κ}

-- Whether it is accepted or refused, the key is in the tree after that.
theorem adds_attempt (hK : StrictTotalOn K) (ht : t.root.Ordered K) {key : κ} (hkey : K key) :
    KeyTree.Adds K key t.root (t.attempt key).root := by
  rcases KeyTree.insert_of_ordered hK hkey ht with ⟨hmem, hdup⟩ | ⟨root, hins, hadds⟩
  · rw [attempt_of_error (insert_eq_error_iff.mpr hdup)]
    refine ⟨ht, fun a => ⟨.inr, ?_⟩⟩
    intro ha
    rcases ha with rfl | ha
    · exact hmem
    · exact ha
  · rw [attempt_of_ok (insert_of_root hins)]
    exact hadds

theorem ordered_attemptAll (hK : StrictTotalOn K) (ht : t.root.Ordered K) (hkeys : ∀ k ∈ keys, K k) :
    (t.attemptAll keys).root.Ordered K ∧
      ∀ a, a ∈ (t.attemptAll keys).root.keys ↔ a ∈ keys ∨ a ∈ t.root.keys := by
  induction keys generalizing t with
  | nil => exact ⟨ht, fun a => ⟨.inr, fun h => h.resolve_left nofun⟩⟩
  | cons key rest ih =>
    rcases List.forall_mem_cons.mp hkeys with ⟨hkey, hrest⟩
    have hadds := adds_attempt hK ht hkey
    have hall := ih hadds.ordered hrest
    refine ⟨hall.1, fun a => ?_⟩
    show a ∈ ((t.attempt key).attemptAll rest).root.keys ↔ _
    rw [hall.2, hadds.mem_iff, List.mem_cons, or_left_comm, or_assoc]

theorem keys_perm_accepted (keys : List κ) :
    (attemptAll ({} : SearchTree κ) keys).root.keys.Perm (accepted ({} : SearchTree κ) keys) := by
  have hperm := keys_attemptAll_perm ({} : SearchTree κ) keys
  rwa [KeyTree.keys, List.nil_append] at hperm

theorem nodup_accepted (hK : StrictTotalOn K) (hkeys : ∀ k ∈ keys, K k) :
    (accepted ({} : SearchTree κ) keys).Nodup := by
  have hordered := (ordered_attemptAll (t := {}) hK KeyTree.ordered_empty hkeys).1
  exact (keys_perm_accepted keys).nodup_iff.mp (hordered.nodup hK)

-- The next key is refused if it was accepted before, and is accepted otherwise.
theorem insert_attemptAll (hK : StrictTotalOn K) (hkeys : ∀ k ∈ keys, K k) {key : κ} (hkey : K key) :
    (key ∈ accepted ({} : SearchTree κ) keys ∧
        (attemptAll ({} : SearchTree κ) keys).insert key = .error (.present key)) ∨
      key ∉ accepted ({} : SearchTree κ) keys ∧
        ∃ made, (attemptAll ({} : SearchTree κ) keys).insert key = .ok made := by
  have hordered := (ordered_attemptAll (t := {}) hK KeyTree.ordered_empty hkeys).1
  have hmem := (keys_perm_accepted keys).mem_iff (a := key)
  rcases KeyTree.insert_of_ordered hK hkey hordered with ⟨hthere, hdup⟩ | ⟨root, hins, hadds⟩
  · exact .inl ⟨hmem.mp hthere, insert_eq_error_iff.mpr hdup⟩
  · have hnew := KeyTree.not_mem_keys_of_insert hK hadds.ordered hins
    exact .inr ⟨mt hmem.mpr hnew, _, insert_of_root hins⟩

-- What becomes of the next key tells whether it was accepted before. The error says so if it can quote
-- the key.
theorem next_key_iff (hK : StrictTotalOn K) (hkeys : ∀ k ∈ keys, K k) {key : κ} (hkey : K key) :
    let t := attemptAll ({} : SearchTree κ) keys
    let S := accepted ({} : SearchTree κ) keys
    ((∃ made, t.insert key = .ok made) ↔ key ∉ S) ∧
      (t.insert key = .error (.duplicate key) ↔ key ∈ S ∧ SearchKey.isWritable key = true) ∧
      (t.insert key = .error .unwritable ↔ key ∈ S ∧ SearchKey.isWritable key = false) ∧
      (key ∈ S → t.attempt key = t) := by
  intro t S
  rcases insert_attemptAll hK hkeys hkey with ⟨hmem, hdup⟩ | ⟨hnew, made, hok⟩
  · have hrefused : t.insert key = .error (.present key) := hdup
    refine ⟨?_, ?_, ?_, fun _ => attempt_of_error hrefused⟩
    · rw [hrefused]
      exact iff_of_false nofun (not_not_intro hmem)
    · rw [hrefused, Except.error.injEq, InsertError.present_eq_duplicate_iff]
      exact (and_iff_right hmem).symm
    · rw [hrefused, Except.error.injEq, InsertError.present_eq_unwritable_iff]
      exact (and_iff_right hmem).symm
  · have haccepted : t.insert key = .ok made := hok
    have hnot : ∀ written, ¬ (key ∈ S ∧ SearchKey.isWritable key = written) := fun _ h => hnew h.1
    rw [haccepted]
    exact ⟨iff_of_true ⟨made, rfl⟩ hnew, iff_of_false nofun (hnot _), iff_of_false nofun (hnot _),
      fun hmem => absurd hmem hnew⟩

/-! ## 4. Trees of given keys -/

-- Either all keys are different and make the tree of their attempts, or one of them is refused because
-- it is among those before it, which are all different.
theorem ofList_cases (hK : StrictTotalOn K) (hkeys : ∀ k ∈ keys, K k) :
    (keys.Nodup ∧ (ofList keys).1 = .ok (attemptAll ({} : SearchTree κ) keys)) ∨
      ∃ earlier key later, keys = earlier ++ key :: later ∧ earlier.Nodup ∧ key ∈ earlier ∧
        (ofList keys).1 = .error (.present key) := by
  rcases insertAll_cases ({} : SearchTree κ) keys with
    ⟨hall, haccepted⟩ | ⟨earlier, key, later, e, rfl, haccepted, hrefused, hstop⟩
  · left
    have hnodup := nodup_accepted hK hkeys
    rw [haccepted] at hnodup
    exact ⟨hnodup, hall⟩
  · right
    have hearlier : ∀ k ∈ earlier, K k := fun k hk => hkeys k (List.mem_append_left _ hk)
    have hkey : K key := hkeys key (List.mem_append_right _ List.mem_cons_self)
    have hnodup := nodup_accepted hK hearlier
    rw [haccepted] at hnodup
    rcases insert_attemptAll hK hearlier hkey with ⟨hmem, hdup⟩ | ⟨-, t', hok⟩
    · rw [haccepted] at hmem
      rw [hdup] at hrefused
      cases hrefused
      exact ⟨earlier, key, later, rfl, hnodup, hmem, hstop⟩
    · rw [hok] at hrefused
      cases hrefused

/-- **Search trees are finite ordered sets.** Let `S` be the keys that an empty tree accepts when these
are tried. The tree that results lists `S` in ascending order and counts it, and is empty if and only
if `S` is. It refuses a further key, without a change, if and only if that is in `S`; as a duplicate,
if the key can be written out, and because the error could not be made otherwise. Keys make a tree of
their own if and only if they are all different, and otherwise the first one that is equal to an
earlier one is refused in one of these ways. The listing does not depend on the order of insertions. -/
theorem attemptAll_is_ordered_set (hK : StrictTotalOn K) (keys : List κ) (hkeys : ∀ k ∈ keys, K k) :
    let t := attemptAll ({} : SearchTree κ) keys
    let S := accepted ({} : SearchTree κ) keys
    (S.Nodup ∧ t.toAscending.Pairwise Before ∧ ∀ k, k ∈ t.toAscending ↔ k ∈ S) ∧
    t.size = S.length ∧
    (t.isEmpty = false ↔ S ≠ []) ∧
    (∀ key, K key →
      ((∃ made, t.insert key = .ok made) ↔ key ∉ S) ∧
      (t.insert key = .error (.duplicate key) ↔ key ∈ S ∧ SearchKey.isWritable key = true) ∧
      (t.insert key = .error .unwritable ↔ key ∈ S ∧ SearchKey.isWritable key = false) ∧
      (key ∈ S → t.attempt key = t)) ∧
    (keys.Nodup → (ofList keys).1 = .ok t) ∧
    (¬ keys.Nodup → ∃ earlier key later, keys = earlier ++ key :: later ∧ earlier.Nodup ∧
      key ∈ earlier ∧ (ofList keys).1 = .error (.present key)) ∧
    ∀ others : List κ, (∀ k, k ∈ others ↔ k ∈ keys) →
      (attemptAll ({} : SearchTree κ) others).toAscending = t.toAscending := by
  intro t S
  have hordered := ordered_attemptAll (t := {}) hK KeyTree.ordered_empty hkeys
  have hperm : t.toAscending.Perm S := by
    rw [toAscending_eq_keys]
    exact keys_perm_accepted keys
  refine ⟨⟨nodup_accepted hK hkeys, ?_, fun k => hperm.mem_iff⟩, ?_, ?_, ?_, ?_, ?_, ?_⟩
  · rw [toAscending_eq_keys]
    exact hordered.1.ascending
  · have hcounted : t.Counted := counted_attemptAll keys rfl
    rw [hcounted, ← toAscending_eq_keys, hperm.length_eq]
  · rw [isEmpty_eq_false_iff, ← toAscending_eq_keys, ← List.length_pos_iff, hperm.length_eq,
      List.length_pos_iff]
  · exact fun key hkey => next_key_iff hK hkeys hkey
  · intro hnodup
    rcases ofList_cases hK hkeys with ⟨-, hok⟩ | ⟨earlier, key, later, rfl, -, hmem, -⟩
    · exact hok
    · exact absurd rfl ((List.nodup_append.mp hnodup).2.2 key hmem key List.mem_cons_self)
  · intro hrepeats
    rcases ofList_cases hK hkeys with ⟨hnodup, -⟩ | hrefused
    · exact absurd hnodup hrepeats
    · exact hrefused
  · intro others hsame
    have hothers : ∀ k ∈ others, K k := fun k hk => hkeys k ((hsame k).mp hk)
    have hordered' := ordered_attemptAll (t := {}) hK KeyTree.ordered_empty hothers
    rw [toAscending_eq_keys, toAscending_eq_keys]
    apply hordered'.1.keys_eq hK hordered.1
    intro k
    rw [hordered'.2, hordered.2, hsame]

/-- Whole numbers, one of which comes twice. -/
def repeating : List Value :=
  [.int 3, .int (-5), .int (10 ^ 20), .int (-5), .int 4]

/-- Texts, one of which comes twice. -/
def repeatingTexts : List Value :=
  [.str "b", .str "", .str "b"]

theorem repeating_makes_set_of_four :
    (¬ repeating.Nodup ∧
      (∃ earlier key later, repeating = earlier ++ key :: later ∧ earlier.Nodup ∧
        key ∈ earlier ∧ (ofList repeating).1 = .error (.present key)) ∧
      (attemptAll {} repeating).insert (.int 3) = .error (.duplicate (.int 3)) ∧
      (attemptAll {} repeating.reverse).toAscending
        = (attemptAll {} repeating).toAscending) ∧
    (attemptAll {} repeatingTexts).size = 2 ∧
    (attemptAll {} repeatingTexts).insert (.str "") = .error (.duplicate (.str "")) := by
  constructor
  · have hkeys : ∀ k ∈ repeating, ∃ i : Int, k = .int i := by
      simp [repeating]
    have hrepeats : ¬ repeating.Nodup := by
      simp [repeating]
    obtain ⟨-, -, -, hnext, -, hrefused, hany⟩ :=
      attemptAll_is_ordered_set strictTotalOn_int repeating hkeys
    obtain ⟨-, hduplicate, -⟩ := hnext (.int 3) ⟨3, rfl⟩
    have hwritable : SearchKey.isWritable (Value.int 3) = true := by decide +kernel
    refine ⟨hrepeats, hrefused hrepeats, hduplicate.mpr ⟨?_, hwritable⟩, hany _ ?_⟩
    · have haccepted : accepted {} repeating
          = [.int 3, .int (-5), .int (10 ^ 20), .int 4] := by rfl
      rw [haccepted]
      exact List.mem_cons_self
    · exact fun k => List.mem_reverse
  · have hkeys : ∀ k ∈ repeatingTexts, ∃ s : String, k = .str s := by
      simp [repeatingTexts]
    obtain ⟨-, hsize, -, hnext, -⟩ := attemptAll_is_ordered_set strictTotalOn_str _ hkeys
    have haccepted : accepted {} repeatingTexts = [.str "b", .str ""] := by rfl
    rw [haccepted] at hsize hnext
    obtain ⟨-, hduplicate, -⟩ := hnext (.str "") ⟨"", rfl⟩
    exact ⟨hsize, hduplicate.mpr ⟨by simp, isWritable_str ""⟩⟩

/-- A whole number of one digit too many. -/
def longKey : Value :=
  .int (Nat.pow 10 Value.digitLimit)

theorem longKey_not_refused_as_duplicate :
    longKey ∈ accepted {} [longKey] ∧
      (attemptAll {} [longKey]).insert longKey = .error .unwritable ∧
      (attemptAll {} [longKey]).insert longKey ≠ .error (.duplicate longKey) := by
  have hmem : longKey ∈ accepted {} [longKey] := List.mem_cons_self
  have hlong : SearchKey.isWritable longKey = false := by
    rw [← Bool.not_eq_true, longKey, isWritable_int_iff, Int.natAbs_natCast]
    exact Nat.lt_irrefl _
  have hkey : ∃ i : Int, longKey = .int i := ⟨_, rfl⟩
  have hkeys : ∀ k ∈ [longKey], ∃ i : Int, k = .int i := List.forall_mem_singleton.mpr hkey
  obtain ⟨-, hduplicate, hunwritable, -⟩ := next_key_iff strictTotalOn_int hkeys hkey
  refine ⟨hmem, hunwritable.mpr ⟨hmem, hlong⟩, ?_⟩
  intro hrefused
  exact Bool.false_ne_true (hlong.symm.trans (hduplicate.mp hrefused).2)

end SearchTree

end TreeTraversal
