import TreeTraversal.Proofs.SearchTree.Place

/-!
# Where iterators stand

An iterator that has not come to its end stands at the root, or to the right of the key it answered
last. In an ordered tree, what is found from there onwards are just the keys that are greater, so that
the next answer is the least of them. Nothing else has to be known of the tree, nor of how it has
grown.
-/

namespace TreeTraversal

variable {κ ε : Type} [SearchKey κ ε] {K : κ → Prop} {t t' : KeyTree κ} {output : List κ}
  {cursor : Place}

/-- A key is greater than the last of these keys, if there is one. -/
def Ahead (output : List κ) (k : κ) : Prop :=
  ∀ last ∈ output.getLast?, Before last k

/-- A key is the least in a tree that is greater than the last of these. -/
structure IsNext (t : KeyTree κ) (output : List κ) (k : κ) : Prop where
  mem_keys : k ∈ t.keys
  ahead : Ahead output k
  least : ∀ m ∈ t.keys, Ahead output m → m = k ∨ Before k m

theorem IsNext.unique (hK : StrictTotalOn K) (ht : t.Ordered K) {k m : κ} (hk : IsNext t output k)
    (hm : IsNext t output m) : k = m := by
  rcases hk.least m hm.mem_keys hm.ahead with rfl | hkm
  · rfl
  · rcases hm.least k hk.mem_keys hk.ahead with rfl | hmk
    · rfl
    · exact absurd hmk (hK.asymm (ht.mem_set k hk.mem_keys) (ht.mem_set m hm.mem_keys) hkm)

/-- A cursor stands at the root, or to the right of the last of these keys. -/
inductive StandsAt (t : KeyTree κ) : List κ → Place → Prop
  | atRoot : StandsAt t [] []
  | behind {output : List κ} {k : κ} {place : Place} {l r : KeyTree κ}
    (hplace : t.subtree place = .fork l k r) (hlast : output.getLast? = some k) :
    StandsAt t output (.right :: place)

theorem StandsAt.has (h : StandsAt t output cursor) : t.Has cursor := by
  cases h with
  | atRoot => trivial
  | behind hplace hlast => exact KeyTree.has_of_fork hplace .right

theorem StandsAt.grow (h : StandsAt t output cursor) (hgrows : t.Grows t') :
    StandsAt t' output cursor := by
  cases h with
  | atRoot => exact .atRoot
  | behind hplace hlast =>
    rcases KeyTree.fork_of_grows hgrows hplace with ⟨l', r', hplace'⟩
    exact .behind hplace' hlast

-- Whatever is found from the cursor onwards is ahead, and all that is ahead is found there.
theorem StandsAt.mem_onwards (hK : StrictTotalOn K) (ht : t.Ordered K)
    (h : StandsAt t output cursor) (m : κ) : m ∈ t.onwards cursor ↔ m ∈ t.keys ∧ Ahead output m := by
  cases h with
  | atRoot =>
    rw [KeyTree.onwards_root]
    exact ⟨fun hm => ⟨hm, nofun⟩, fun hm => hm.1⟩
  | @behind _ k place l r hplace hlast =>
    have hahead : Ahead output m ↔ Before k m := by
      simp [Ahead, hlast]
    rcases t.onwards_suffix place with ⟨passed, hpassed⟩
    -- the keys up to the last one answered, that one, and what is found from the cursor onwards
    have hkeys : t.keys = (passed ++ l.keys) ++ k :: t.onwards (.right :: place) := by
      rw [← hpassed, KeyTree.onwards_fork hplace, List.append_assoc]
    have hpairs := ht.ascending
    rw [hkeys, List.pairwise_append, List.pairwise_cons] at hpairs
    rcases hpairs with ⟨-, ⟨hafter, -⟩, hbefore⟩
    have hset := ht.mem_set
    rw [hahead]
    constructor
    · intro hm
      refine ⟨?_, hafter m hm⟩
      rw [hkeys]
      exact List.mem_append_right _ (List.mem_cons_of_mem k hm)
    · intro hboth
      rcases hboth with ⟨hm, hkm⟩
      have hk : K k := by
        apply hset
        rw [hkeys]
        exact List.mem_append_right _ List.mem_cons_self
      have hplaces : m ∈ passed ++ l.keys ∨ m = k ∨ m ∈ t.onwards (.right :: place) := by
        rwa [hkeys, List.mem_append, List.mem_cons] at hm
      rcases hplaces with hleft | rfl | hright
      · exact absurd hkm (hK.asymm (hset m hm) hk (hbefore m hleft k List.mem_cons_self))
      · exact absurd hkm (hK.irrefl hk)
      · exact hright

-- The next answer of an iterator that stands somewhere, and where it stands then.
theorem StandsAt.next (hK : StrictTotalOn K) {t : SearchTree κ} (ht : t.root.Ordered K)
    (h : StandsAt t.root output cursor) :
    ((Iterator.running (Iterator.leftTurns cursor) cursor).next t = (none, .ended) ∧
      ∀ m ∈ t.root.keys, ¬ Ahead output m) ∨
    ∃ k cursor', (Iterator.running (Iterator.leftTurns cursor) cursor).next t
        = (some k, .running (Iterator.leftTurns cursor') cursor') ∧
      IsNext t.root output k ∧ StandsAt t.root (output ++ [k]) cursor' := by
  have hmem := h.mem_onwards hK ht
  rcases Iterator.next_running t h.has with ⟨hnone, hnext⟩ | ⟨place, l, k, r, hplace, hfirst, hnext⟩
  · left
    refine ⟨hnext, ?_⟩
    intro m hm hahead
    have honwards := (hmem m).mpr ⟨hm, hahead⟩
    rw [hnone] at honwards
    cases honwards
  · right
    -- the keys from the cursor onwards ascend as all keys do, so their first is the least
    have hpairs := ht.ascending.sublist (t.root.onwards_suffix cursor).sublist
    rw [hfirst, List.pairwise_cons] at hpairs
    have hfound : k ∈ t.root.onwards cursor := by
      rw [hfirst]
      exact List.mem_cons_self
    rcases (hmem k).mp hfound with ⟨hk, hahead⟩
    refine ⟨k, .right :: place, hnext, ⟨hk, hahead, ?_⟩, .behind hplace ?_⟩
    · intro m hm hm'
      have honwards := (hmem m).mpr ⟨hm, hm'⟩
      rw [hfirst, List.mem_cons] at honwards
      rcases honwards with rfl | honwards
      · exact .inl rfl
      · exact .inr (hpairs.1 m honwards)
    · exact List.getLast?_concat

end TreeTraversal
