import Mathlib.Data.List.Perm.Basic
import TreeTraversal.Proofs.SearchTree.Order

/-!
# Attempts to insert

Somebody who goes on after a refusal ends up with a tree of the keys that were accepted. Nothing is
asked of the comparison here: whatever it answers, an insertion either adds one key or changes
nothing, and inserting up to the first refusal makes the same tree as long as nothing is refused.
-/

namespace TreeTraversal

variable {κ ε : Type} [SearchKey κ ε]

namespace KeyTree

-- An insertion adds the key and keeps all others in their order.
theorem keys_insert_perm {key : κ} {t t' : KeyTree κ} (h : t.insert key = .ok t') :
    t'.keys.Perm (key :: t.keys) := by
  induction t generalizing t' with
  | empty =>
    cases h
    exact .refl _
  | fork l k r ihl ihr =>
    rcases insert_fork_ok h with ⟨-, l', hl, rfl⟩ | ⟨-, r', hr, rfl⟩
    · exact (ihl hl).append_right (k :: r.keys)
    · have hright : (k :: r'.keys).Perm (key :: k :: r.keys) :=
        ((ihr hr).cons k).trans (List.Perm.swap key k r.keys)
      exact (hright.append_left l.keys).trans List.perm_middle

end KeyTree

namespace SearchTree

variable {t t' : SearchTree κ} {key : κ} {insertion : Insertion κ}

/-! ## 1. One attempt after another -/

/-- The tree after an attempt to insert a key. A key that is refused changes nothing. -/
def attempt (t : SearchTree κ) (key : κ) : SearchTree κ :=
  match t.insert key with
  | .ok (t', _) => t'
  | .error _ => t

def attemptAll (t : SearchTree κ) (keys : List κ) : SearchTree κ :=
  keys.foldl attempt t

/-- The keys that are accepted when all of these are tried. -/
def accepted (t : SearchTree κ) : List κ → List κ
  | [] => []
  | key :: rest =>
    match t.insert key with
    | .ok (t', _) => key :: t'.accepted rest
    | .error _ => t.accepted rest

theorem insert_of_root {root : KeyTree κ} (h : t.root.insert key = .ok root) :
    t.insert key = .ok (⟨root, t.size + 1⟩, ⟨key, t.size + 1⟩) := by
  rw [insert, h]
  rfl

-- What an insertion makes of the tree, and its record.
theorem insert_ok (h : t.insert key = .ok (t', insertion)) :
    t.root.insert key = .ok t'.root ∧ t'.size = t.size + 1 ∧ insertion = ⟨key, t'.size⟩ := by
  cases hroot : t.root.insert key with
  | error e =>
    rw [insert, hroot] at h
    cases h
  | ok root =>
    rw [insert_of_root hroot] at h
    cases h
    exact ⟨rfl, rfl, rfl⟩

theorem insert_eq_error_iff {e : InsertError κ ε} :
    t.insert key = .error e ↔ t.root.insert key = .error e := by
  unfold insert
  cases t.root.insert key <;> simp [Except.map]

theorem attempt_of_ok (h : t.insert key = .ok (t', insertion)) : t.attempt key = t' := by
  simp only [attempt, h]

theorem attempt_of_error {e : InsertError κ ε} (h : t.insert key = .error e) :
    t.attempt key = t := by
  simp only [attempt, h]

theorem accepted_of_ok (h : t.insert key = .ok (t', insertion)) (rest : List κ) :
    t.accepted (key :: rest) = key :: t'.accepted rest := by
  simp only [accepted, h]

theorem accepted_of_error {e : InsertError κ ε} (h : t.insert key = .error e) (rest : List κ) :
    t.accepted (key :: rest) = t.accepted rest := by
  simp only [accepted, h]

/-- What every accepted key keeps, any attempts keep. -/
theorem attemptAll_keeps {P : SearchTree κ → Prop} (keys : List κ)
    (step : ∀ key ∈ keys, ∀ t t', P t →
      t.root.insert key = .ok t'.root → t'.size = t.size + 1 → P t')
    (h : P t) : P (t.attemptAll keys) := by
  induction keys generalizing t with
  | nil => exact h
  | cons key rest ih =>
    have hattempt : P (t.attempt key) := by
      cases hinsert : t.insert key with
      | ok made =>
        rcases insert_ok hinsert with ⟨hroot, hsize, -⟩
        rw [attempt_of_ok hinsert]
        exact step key List.mem_cons_self t made.1 h hroot hsize
      | error e =>
        rw [attempt_of_error hinsert]
        exact h
    exact ih (fun k hk => step k (List.mem_cons_of_mem key hk)) hattempt

/-- The size is the number of the keys. -/
def Counted (t : SearchTree κ) : Prop :=
  t.size = t.root.keys.length

theorem counted_attemptAll (keys : List κ) (h : t.Counted) : (t.attemptAll keys).Counted := by
  apply attemptAll_keeps keys _ h
  intro key _ t t' ht hroot hsize
  show t'.size = t'.root.keys.length
  rw [hsize, (KeyTree.keys_insert_perm hroot).length_eq, ht, List.length_cons]

theorem keys_attemptAll_perm (t : SearchTree κ) (keys : List κ) :
    (t.attemptAll keys).root.keys.Perm (t.root.keys ++ t.accepted keys) := by
  induction keys generalizing t with
  | nil =>
    rw [accepted, List.append_nil]
    exact .refl _
  | cons key rest ih =>
    show ((t.attempt key).attemptAll rest).root.keys.Perm _
    cases hinsert : t.insert key with
    | error e =>
      rw [attempt_of_error hinsert, accepted_of_error hinsert]
      exact ih t
    | ok made =>
      have hadded := KeyTree.keys_insert_perm (insert_ok hinsert).1
      rw [attempt_of_ok hinsert, accepted_of_ok hinsert]
      exact ((ih made.1).trans (hadded.append_right _)).trans List.perm_middle.symm

/-! ## 2. Up to the first refusal -/

-- Inserting keys up to the first refusal either accepts all of them, or the keys before one that the
-- tree of those refuses.
theorem insertAll_cases (t : SearchTree κ) (keys : List κ) :
    ((t.insertAll keys).1 = .ok (t.attemptAll keys) ∧ t.accepted keys = keys) ∨
      ∃ earlier key later e, keys = earlier ++ key :: later ∧ t.accepted earlier = earlier ∧
        (t.attemptAll earlier).insert key = .error e ∧ (t.insertAll keys).1 = .error e := by
  induction keys generalizing t with
  | nil => exact .inl ⟨rfl, rfl⟩
  | cons key rest ih =>
    cases hinsert : t.insert key with
    | error e =>
      right
      refine ⟨[], key, rest, e, rfl, rfl, hinsert, ?_⟩
      simp only [insertAll, hinsert]
    | ok made =>
      have hrun : (t.insertAll (key :: rest)).1 = (made.1.insertAll rest).1 := by
        simp only [insertAll, hinsert]
      have hattempts : ∀ keys, t.attemptAll (key :: keys) = made.1.attemptAll keys := by
        intro keys
        show (t.attempt key).attemptAll keys = made.1.attemptAll keys
        rw [attempt_of_ok hinsert]
      rw [hrun, hattempts, accepted_of_ok hinsert]
      rcases ih made.1 with ⟨hall, haccepted⟩ | ⟨earlier, k, later, e, rfl, haccepted, hrefused, hstop⟩
      · left
        rw [haccepted]
        exact ⟨hall, rfl⟩
      · right
        refine ⟨key :: earlier, k, later, e, rfl, ?_, ?_, hstop⟩
        · rw [accepted_of_ok hinsert, haccepted]
        · rw [hattempts]
          exact hrefused

end SearchTree

end TreeTraversal
