import Mathlib.Data.List.Nodup
import Mathlib.Data.List.Perm.Subperm
import TreeTraversal.Proofs.Node.Cycles

/-!
# Children with one owner

Where every node is given away at most once, no link to a sibling is ever set again. A parent holds only
its first child, and yet its chain of siblings stays the list of children that it was given, whatever is
made later, and a cursor finds these children also while other nodes are being made.
-/

namespace TreeTraversal

variable {α : Type}

/-! ## 1. Lists without repetition -/

theorem follows_iff_getElem? {β : Type} {list : List β} {c b : β} :
    Follows list c b ↔ ∃ i, list[i]? = some c ∧ list[i + 1]? = some b := by
  unfold Follows
  rw [List.infix_iff_getElem?]
  constructor
  · rintro ⟨i, hle, hget⟩
    have hc := hget 0 (by simp)
    have hb := hget 1 (by simp)
    rw [Nat.zero_add] at hc
    rw [Nat.add_comm] at hb
    exact ⟨i, hc, hb⟩
  · rintro ⟨i, hc, hb⟩
    obtain ⟨hlt, -⟩ := List.getElem?_eq_some_iff.mp hb
    refine ⟨i, by rw [List.length_cons, List.length_singleton]; omega, ?_⟩
    intro j hj
    match j with
    | 0 => rw [Nat.zero_add]; exact hc
    | 1 => rw [Nat.add_comm]; exact hb

-- In such a list there is only one place where a node can be followed by another.
theorem Follows.getElem?_succ {β : Type} {list : List β} (hnodup : list.Nodup) {i : Nat} {c b : β}
    (h : Follows list c b) (hc : list[i]? = some c) : list[i + 1]? = some b := by
  obtain ⟨j, hj, hb⟩ := follows_iff_getElem?.mp h
  obtain ⟨hlt, -⟩ := List.getElem?_eq_some_iff.mp hc
  have hplace : i = j := (List.getElem?_inj hlt hnodup).mp (hc.trans hj.symm)
  rwa [hplace]

/-! ## 2. Single ownership -/

/-- Calls that make linked nodes of linked nodes, by which no node is given away twice. -/
structure OwnedOnce (run : List (Making α)) : Prop where
  linked : ∀ m ∈ run, m.shape = .linked
  builtBefore : BuiltBefore run
  nodup : (given run).Nodup

theorem Making.chained_of_linked {m : Making α} (h : m.shape = .linked) : m.chained = m.children := by
  cases m with
  | binary d l r => cases h
  | linked d cs => rfl

theorem Making.entry_of_linked {m : Making α} (h : m.shape = .linked) :
    m.entry = ⟨.linked m.data m.children.head?, .set none⟩ := by
  cases m with
  | binary d l r => cases h
  | linked d cs => rfl

namespace OwnedOnce

variable {run rest : List (Making α)} {m m' : Making α} {j k i : Nat} {c b : NodeId}

theorem of_append (h : OwnedOnce (run ++ rest)) : OwnedOnce run where
  linked := fun m hm => h.linked m (List.mem_append_left rest hm)
  builtBefore := h.builtBefore.of_append
  nodup := by
    have hnodup := h.nodup
    rw [given_append] at hnodup
    exact (List.nodup_append.mp hnodup).2.1

theorem children_nodup (h : OwnedOnce run) (hm : m ∈ run) : m.children.Nodup :=
  h.nodup.sublist (children_sublist_given hm)

/-- A node is given away by one call only. -/
theorem owner_unique (h : OwnedOnce run) (hm : run[j]? = some m) (hm' : run[k]? = some m')
    (hc : c ∈ m.children) (hc' : c ∈ m'.children) : j = k := by
  have honce : ¬ List.Sublist [c, c] (given run) := List.nodup_iff_sublist.mp h.nodup c
  by_contra hne
  by_cases hlt : j < k
  · exact honce (sublist_given_of_lt hlt hm hm' hc hc')
  · exact honce (sublist_given_of_lt (by omega) hm' hm hc' hc)

theorem get? (h : OwnedOnce run) (hm : run[k]? = some m) :
    ∃ next, (Store.ofRun run).get? ⟨k⟩ = some ⟨.linked m.data m.children.head?, .set next⟩ := by
  obtain ⟨sibling, hget, hsibling⟩ := Store.get?_ofRun hm
  rw [Making.entry_of_linked (h.linked m (List.mem_of_getElem? hm))] at hget hsibling
  rcases hsibling with rfl | ⟨next, rfl⟩
  · exact ⟨none, hget⟩
  · exact ⟨next, hget⟩

theorem exists_call (h : OwnedOnce run) (hc : c ∈ given run) : ∃ m, run[c.index]? = some m := by
  have hlt := Store.index_lt_of_mem_given h.builtBefore hc
  exact ⟨_, List.getElem?_eq_getElem hlt⟩

/-! ## 3. Links between siblings -/

-- A later call does not touch the link of a node that has been given away.
theorem next?_of_follows (h : OwnedOnce run) (hm : m ∈ run) (hfollows : Follows m.children c b) :
    (Store.ofRun run).next? c = some b := by
  induction run using List.reverseRecOn with
  | nil => cases hm
  | append_singleton run last ih =>
    have hlast : given [last] = last.children := by simp [given]
    obtain ⟨hnodup, -, hdisjoint⟩ := List.nodup_append.mp (given_append run [last] ▸ h.nodup)
    obtain ⟨k, hk⟩ := List.getElem?_of_mem hm
    have hle := (List.getElem?_eq_some_iff.mp hk).1
    have hlt := h.builtBefore k m hk c hfollows.mem_left
    rw [List.length_append, List.length_singleton] at hle
    have hold : c.index < (Store.ofRun run).entries.size := by
      rw [Store.size_ofRun]
      omega
    have hchained : last.chained = last.children :=
      Making.chained_of_linked (h.linked last (List.mem_append_right run List.mem_cons_self))
    rw [Store.ofRun_append_singleton, Store.next?_made, if_neg (by omega), hchained]
    rcases List.mem_append.mp hm with hm | hm
    · rw [Store.next?_chained_of_not_follows, ih h.of_append hm]
      intro d hd
      have hgiven : c ∈ given run := mem_given_iff.mpr ⟨m, hm, hfollows.mem_left⟩
      exact hdisjoint c (hlast ▸ hd.mem_left) c hgiven rfl
    · rw [List.mem_singleton.mp hm] at hfollows
      exact Store.next?_chained_of_follows (hlast ▸ hnodup) hold hfollows

/-- What follows a child is the next one of the children that its owner was given. -/
theorem next?_child (h : OwnedOnce run) (hm : run[k]? = some m) (hc : m.children[i]? = some c) :
    (Store.ofRun run).next? c = m.children[i + 1]? := by
  have hmem : c ∈ m.children := List.mem_of_getElem? hc
  cases hnext : (Store.ofRun run).next? c with
  | some b =>
    obtain ⟨m', hm', hfollows⟩ := Store.exists_call_of_next? hnext
    rw [Making.chained_of_linked (h.linked m' hm')] at hfollows
    obtain ⟨j, hj⟩ := List.getElem?_of_mem hm'
    have howner : j = k := h.owner_unique hj hm hfollows.mem_left hmem
    have hsame : m' = m := Option.some.inj (hj.symm.trans (howner ▸ hm))
    rw [hsame] at hfollows
    exact (hfollows.getElem?_succ (h.children_nodup (List.mem_of_getElem? hm)) hc).symm
  | none =>
    cases hb : m.children[i + 1]? with
    | none => rfl
    | some b =>
      have hfollows : Follows m.children c b := follows_iff_getElem?.mpr ⟨i, hc, hb⟩
      rw [h.next?_of_follows (List.mem_of_getElem? hm) hfollows] at hnext
      cases hnext

-- A node has a sibling after it just if it was given away with another node after it.
theorem next?_isSome_iff (h : OwnedOnce run) :
    ((Store.ofRun run).next? c).isSome ↔ ∃ m ∈ run, ∃ b, Follows m.children c b := by
  constructor
  · intro hsome
    obtain ⟨b, hb⟩ := Option.isSome_iff_exists.mp hsome
    obtain ⟨m, hm, hfollows⟩ := Store.exists_call_of_next? hb
    rw [Making.chained_of_linked (h.linked m hm)] at hfollows
    exact ⟨m, hm, b, hfollows⟩
  · rintro ⟨m, hm, b, hfollows⟩
    rw [h.next?_of_follows hm hfollows]
    rfl

end OwnedOnce

/-! ## 4. Cursors -/

/-- Where the cursor of a parent stands once it has found some of the children. -/
def ChildCursor.atPlace (parent : NodeId) (children : List NodeId) : Nat → ChildCursor
  | 0 => .before parent
  | found + 1 =>
    match children[found]? with
    | some child => .after child
    | none => .ended

namespace OwnedOnce

variable {run : List (Making α)} {m : Making α} {k : Nat}

theorem behind_atPlace (h : OwnedOnce run) (hm : run[k]? = some m) (found : Nat) :
    (Store.ofRun run).behind (.atPlace ⟨k⟩ m.children found) = .ok m.children[found]? := by
  cases found with
  | zero =>
    obtain ⟨next, hget⟩ := h.get? hm
    rw [ChildCursor.atPlace, Store.behind, Store.firstChild, hget, ← List.head?_eq_getElem?]
    rfl
  | succ found =>
    rw [ChildCursor.atPlace]
    cases hc : m.children[found]? with
    | some c =>
      have hgiven : c ∈ given run :=
        mem_given_iff.mpr ⟨m, List.mem_of_getElem? hm, List.mem_of_getElem? hc⟩
      obtain ⟨own, hown⟩ := h.exists_call hgiven
      obtain ⟨next, hget⟩ := h.get? hown
      have hnext := h.next?_child hm hc
      rw [Store.next?, hget] at hnext
      show (Store.ofRun run).nextSibling c = _
      rw [Store.nextSibling, hget]
      exact congrArg Except.ok hnext
    | none =>
      have hend : m.children[found + 1]? = none := by
        rw [List.getElem?_eq_none_iff] at hc ⊢
        omega
      rw [hend]
      rfl

theorem advance_atPlace (h : OwnedOnce run) (hm : run[k]? = some m) (found : Nat) :
    (Store.ofRun run).advance (.atPlace ⟨k⟩ m.children found)
      = (.ok m.children[found]?, .atPlace ⟨k⟩ m.children (found + 1)) := by
  rw [Store.advance, h.behind_atPlace hm, ChildCursor.atPlace]
  cases m.children[found]? <;> rfl

theorem remaining_atPlace (h : OwnedOnce run) (hm : run[k]? = some m) (limit found : Nat) :
    (Store.ofRun run).remaining limit (.atPlace ⟨k⟩ m.children found)
      = .ok ((m.children.drop found).take limit) := by
  induction limit generalizing found with
  | zero => rw [List.take_zero]; rfl
  | succ limit ih =>
    rw [Store.remaining, h.behind_atPlace hm]
    cases hc : m.children[found]? with
    | none =>
      rw [List.drop_eq_nil_of_le (List.getElem?_eq_none_iff.mp hc), List.take_nil]
    | some c =>
      have hafter : ChildCursor.atPlace ⟨k⟩ m.children (found + 1) = .after c := by
        rw [ChildCursor.atPlace, hc]
      obtain ⟨hlt, hget⟩ := List.getElem?_eq_some_iff.mp hc
      show Except.map (c :: ·) ((Store.ofRun run).remaining limit (.after c)) = _
      rw [← hafter, ih, List.drop_eq_getElem_cons hlt, hget]
      rfl

-- The children of a node are some of the nodes made before it.
theorem length_children_le (h : OwnedOnce run) (hm : run[k]? = some m) :
    m.children.length ≤ run.length := by
  have hnodup : (m.children.map NodeId.index).Nodup := by
    apply (h.children_nodup (List.mem_of_getElem? hm)).map
    rintro ⟨a⟩ ⟨b⟩ hab
    cases hab
    rfl
  have hsubset : m.children.map NodeId.index ⊆ List.range k := by
    intro index hindex
    obtain ⟨c, hc, rfl⟩ := List.mem_map.mp hindex
    exact List.mem_range.mpr (h.builtBefore k m hm c hc)
  have hlength := (List.subperm_of_subset hnodup hsubset).length_le
  rw [List.length_map, List.length_range] at hlength
  have hlt := (List.getElem?_eq_some_iff.mp hm).1
  omega

theorem chainedChildren_eq (h : OwnedOnce run) (hm : run[k]? = some m) :
    (Store.ofRun run).chainedChildren ⟨k⟩ = .ok m.children := by
  have hremaining := h.remaining_atPlace hm (Store.ofRun run).entries.size 0
  have hle := h.length_children_le hm
  rw [Store.size_ofRun, List.drop_zero, List.take_of_length_le hle] at hremaining
  rw [Store.chainedChildren, Store.size_ofRun]
  exact hremaining

end OwnedOnce

/-! ## 5. Cursors that are asked while nodes are being made -/

/-- What may happen while a cursor is in use. -/
inductive Moment (α : Type) where
  | make (m : Making α)
  | ask

namespace Moment

def making? : Moment α → Option (Making α)
  | make m => some m
  | ask => none

def isAsk : Moment α → Bool
  | make _ => false
  | ask => true

end Moment

/-- What a cursor answers each time it is asked. -/
def Store.answers (s : Store α) (c : ChildCursor) :
    List (Moment α) → List (Except Error (Option NodeId))
  | [] => []
  | .make m :: rest => (s.made m).answers c rest
  | .ask :: rest => (s.advance c).1 :: s.answers (s.advance c).2 rest

namespace OwnedOnce

/-- A cursor goes on through the children, one with each time it is asked, and then stays at the end. -/
theorem answers_atPlace {run : List (Making α)} {m : Making α} {k : Nat} {moments : List (Moment α)}
    (h : OwnedOnce (run ++ moments.filterMap Moment.making?)) (hm : run[k]? = some m) (found : Nat) :
    (Store.ofRun run).answers (.atPlace ⟨k⟩ m.children found) moments
      = (List.range' found (moments.countP Moment.isAsk)).map fun i => .ok m.children[i]? := by
  induction moments generalizing run found with
  | nil => rfl
  | cons moment rest ih =>
    cases moment with
    | make next =>
      have hrun : OwnedOnce ((run ++ [next]) ++ rest.filterMap Moment.making?) := by
        rw [List.append_assoc]
        exact h
      have hm' : (run ++ [next])[k]? = some m := by
        rw [List.getElem?_append_left (List.getElem?_eq_some_iff.mp hm).1, hm]
      rw [Store.answers, ← Store.ofRun_append_singleton, ih hrun hm']
      rfl
    | ask =>
      have hrest : OwnedOnce (run ++ rest.filterMap Moment.making?) := h
      rw [Store.answers, h.of_append.advance_atPlace hm, ih hrest hm,
        List.countP_cons_of_pos rfl, List.range'_succ]
      rfl

end OwnedOnce

end TreeTraversal
