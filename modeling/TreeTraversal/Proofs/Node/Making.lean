import Mathlib.Data.List.Infix
import TreeTraversal.Node.ChildCursor
import TreeTraversal.Proofs.Visitor.History

/-!
# Nodes made one after the other

A run is a list of constructor calls, of which each may be given nodes that were made before it. What a
node is made of stays as it is; only the link to the sibling after it is set later, when the node is
given to a linked parent together with others. This module says what the store holds after a run.
-/

namespace TreeTraversal

/-! ## 1. Calls of constructors -/

/-- A call that makes a node with two slots, or a linked node with some children. -/
inductive Making (α : Type) where
  | binary (data : α) (left right : Option NodeId)
  | linked (data : α) (children : List NodeId)

namespace Making

variable {α ε : Type}

def data : Making α → α
  | binary d _ _ => d
  | linked d _ => d

def shape : Making α → Shape
  | binary .. => .binary
  | linked .. => .linked

/-- The nodes that the call is given. -/
def children : Making α → List NodeId
  | binary _ l r => l.toList ++ r.toList
  | linked _ cs => cs

/-- The nodes that the call chains. -/
def chained : Making α → List NodeId
  | binary .. => []
  | linked _ cs => cs

/-- The node that is made. -/
def entry : Making α → Entry α
  | binary d l r => ⟨.binary d l r, .unset⟩
  | linked d cs => ⟨.linked d cs.head?, .set none⟩

def build [IncludesErrors ε] : Making α → EStateM ε (Store α) NodeId
  | binary d l r => Store.addBinary d l r
  | linked d cs => Store.addLinked d (cs.map some)

end Making

/-- Whether the second of two comes right after the first in a list. -/
def Follows {β : Type} (list : List β) (c b : β) : Prop :=
  [c, b] <:+: list

section Follows

variable {β : Type} {list : List β} {a b c d : β}

theorem follows_cons_cons :
    Follows (a :: b :: list) c d ↔ (c = a ∧ d = b) ∨ Follows (b :: list) c d := by
  unfold Follows
  rw [List.infix_cons_iff]
  simp only [List.cons_prefix_cons, List.nil_prefix, and_true]

theorem not_follows_singleton : ¬ Follows [a] c d :=
  fun h => by simpa using h.length_le

theorem not_follows_nil : ¬ Follows ([] : List β) c d :=
  fun h => by simpa using h.length_le

theorem Follows.mem_left (h : Follows list c d) : c ∈ list :=
  h.subset List.mem_cons_self

end Follows

namespace Store

variable {α ε : Type}

/-! ## 2. Chaining -/

/-- The store after some children have been chained. -/
def chained (s : Store α) : List NodeId → Store α
  | a :: b :: rest => (s.link a (some b)).chained (b :: rest)
  | _ => s

-- Children that are all there can be chained.
theorem chain_eq_ok [IncludesErrors ε] (cs : List NodeId) (s : Store α) :
    (chain (cs.map some) : EStateM ε (Store α) Unit) s = .ok () (s.chained cs) := by
  induction cs generalizing s with
  | nil => rfl
  | cons a rest ih =>
    cases rest with
    | nil => rfl
    | cons b rest =>
      rw [chained, List.map_cons, List.map_cons, chain, modify_bind]
      exact ih (s.link a (some b))

/-- The link from a stored node to the sibling after it, if there is one. -/
def next? (s : Store α) (id : NodeId) : Option NodeId :=
  (s.get? id).bind fun entry => entry.sibling.next

theorem get?_link (s : Store α) (a c : NodeId) (next : Option NodeId) :
    (s.link a next).get? c
      = if a = c then (s.get? c).map fun entry => { entry with sibling := .set next }
        else s.get? c := by
  unfold get? link
  rw [Array.getElem?_modify]
  have hsame : a.index = c.index ↔ a = c := by
    cases a
    cases c
    simp
  simp only [hsame]

theorem size_chained (s : Store α) (cs : List NodeId) :
    (s.chained cs).entries.size = s.entries.size := by
  induction s, cs using chained.induct with
  | case1 s a b rest ih =>
    rw [chained, ih]
    exact Array.size_modify
  | case2 s cs h => rw [chained]; exact h

/-- Chaining leaves everything as it is but the links between siblings, and it sets links only. -/
theorem get?_chained {s : Store α} {cs : List NodeId} {id : NodeId} {entry : Entry α}
    (h : s.get? id = some entry) :
    ∃ sibling, (s.chained cs).get? id = some ⟨entry.cell, sibling⟩ ∧
      (sibling = entry.sibling ∨ ∃ next, sibling = .set next) := by
  induction s, cs using chained.induct generalizing entry with
  | case1 s a b rest ih =>
    rw [chained]
    have hlink := get?_link s a id (some b)
    rw [h] at hlink
    by_cases ha : a = id
    · rw [if_pos ha] at hlink
      obtain ⟨sibling, hget, hsame | hset⟩ := ih hlink
      · exact ⟨sibling, hget, .inr ⟨some b, hsame⟩⟩
      · exact ⟨sibling, hget, .inr hset⟩
    · rw [if_neg ha] at hlink
      exact ih hlink
  | case2 s cs hcs =>
    rw [chained]
    · exact ⟨entry.sibling, h, .inl rfl⟩
    · exact hcs

theorem next?_link (s : Store α) (a c : NodeId) (b : NodeId) :
    (s.link a (some b)).next? c
      = if a = c ∧ c.index < s.entries.size then some b else s.next? c := by
  unfold next?
  rw [get?_link]
  by_cases ha : a = c
  · rw [if_pos ha]
    by_cases hlt : c.index < s.entries.size
    · rw [if_pos ⟨ha, hlt⟩, get?, Array.getElem?_eq_getElem hlt]
      rfl
    · rw [if_neg fun h => hlt h.2, get?, Array.getElem?_eq_none (Nat.le_of_not_lt hlt)]
      rfl
  · rw [if_neg ha, if_neg fun h => ha h.1]

-- A link between siblings was there before, or was set by the chaining.
theorem next?_chained {s : Store α} {cs : List NodeId} {c b : NodeId}
    (h : (s.chained cs).next? c = some b) : Follows cs c b ∨ s.next? c = some b := by
  induction s, cs using chained.induct with
  | case1 s a a' rest ih =>
    rw [chained] at h
    rw [follows_cons_cons]
    rcases ih h with hfollows | hlink
    · exact .inl (.inr hfollows)
    · rw [next?_link] at hlink
      split at hlink
      · rename_i hsame
        cases hlink
        exact .inl (.inl ⟨hsame.1.symm, rfl⟩)
      · exact .inr hlink
  | case2 s cs hcs =>
    rw [chained] at h
    · exact .inr h
    · exact hcs

-- A node that none of the chained ones follows keeps its link.
theorem next?_chained_of_not_follows {s : Store α} {cs : List NodeId} {c : NodeId}
    (h : ∀ b, ¬ Follows cs c b) : (s.chained cs).next? c = s.next? c := by
  induction s, cs using chained.induct with
  | case1 s a a' rest ih =>
    have hrest : ∀ b, ¬ Follows (a' :: rest) c b :=
      fun b hb => h b (follows_cons_cons.mpr (.inr hb))
    have hne : a ≠ c := fun ha => h a' (follows_cons_cons.mpr (.inl ⟨ha.symm, rfl⟩))
    rw [chained, ih hrest, next?_link, if_neg fun hb => hne hb.1]
  | case2 s cs hcs =>
    rw [chained]
    exact hcs

theorem next?_chained_of_follows {s : Store α} {cs : List NodeId} (hnodup : cs.Nodup) {c b : NodeId}
    (hc : c.index < s.entries.size) (h : Follows cs c b) : (s.chained cs).next? c = some b := by
  induction s, cs using chained.induct with
  | case1 s a a' rest ih =>
    obtain ⟨hnotMem, hnodup'⟩ := List.nodup_cons.mp hnodup
    rw [chained]
    rcases follows_cons_cons.mp h with ⟨rfl, rfl⟩ | hrest
    · -- the node occurs only once, so that its link is not set again
      rw [next?_chained_of_not_follows fun b' hb' => hnotMem hb'.mem_left, next?_link,
        if_pos ⟨rfl, hc⟩]
    · apply ih hnodup' _ hrest
      exact Nat.lt_of_lt_of_eq hc Array.size_modify.symm
  | case2 cs s hcs =>
    cases cs with
    | nil => exact absurd h not_follows_nil
    | cons a rest =>
      cases rest with
      | nil => exact absurd h not_follows_singleton
      | cons a' rest => exact absurd rfl (hcs a a' rest)

/-! ## 3. One call -/

/-- The store that a call leaves behind. -/
def made (s : Store α) (m : Making α) : Store α :=
  stateLeft (m.build : EStateM Error (Store α) NodeId) s

-- No call fails.
theorem build_eq_ok [IncludesErrors ε] (s : Store α) (m : Making α) :
    (m.build : EStateM ε (Store α) NodeId) s
      = .ok ⟨s.entries.size⟩ ⟨(s.chained m.chained).entries.push m.entry⟩ := by
  cases m with
  | binary d l r => rfl
  | linked d cs =>
    have hhead : (cs.map some).head?.getD none = cs.head? := by
      rw [List.head?_map]
      cases cs.head? <;> rfl
    rw [Making.build, addLinked, bind_of_ok (chain_eq_ok cs s), hhead, ← size_chained s cs]
    rfl

theorem made_eq (s : Store α) (m : Making α) :
    s.made m = ⟨(s.chained m.chained).entries.push m.entry⟩ :=
  stateLeft_of_ok (build_eq_ok s m)

theorem size_made (s : Store α) (m : Making α) :
    (s.made m).entries.size = s.entries.size + 1 := by
  rw [made_eq, Array.size_push, size_chained]

theorem get?_made_new (s : Store α) (m : Making α) :
    (s.made m).get? ⟨s.entries.size⟩ = some m.entry := by
  rw [made_eq, get?, ← size_chained s m.chained]
  exact Array.getElem?_push_size

theorem get?_made_of_ne {s : Store α} {m : Making α} {id : NodeId} (h : id.index ≠ s.entries.size) :
    (s.made m).get? id = (s.chained m.chained).get? id := by
  rw [← size_chained s m.chained] at h
  rw [made_eq, get?, get?, Array.getElem?_push, if_neg h]

-- A new node has no sibling yet.
theorem next?_made (s : Store α) (m : Making α) (id : NodeId) :
    (s.made m).next? id
      = if id.index = s.entries.size then none else (s.chained m.chained).next? id := by
  by_cases hid : id.index = s.entries.size
  · have hnew : id = ⟨s.entries.size⟩ := by rw [← hid]
    rw [if_pos hid, hnew, next?, get?_made_new]
    cases m <;> rfl
  · rw [if_neg hid, next?, get?_made_of_ne hid, next?]

/-! ## 4. Runs -/

/-- The store after some calls. -/
def ofRun (run : List (Making α)) : Store α :=
  run.foldl made {}

theorem ofRun_append_singleton (run : List (Making α)) (m : Making α) :
    ofRun (run ++ [m]) = (ofRun run).made m := by
  rw [ofRun, List.foldl_append]
  rfl

theorem size_ofRun (run : List (Making α)) : (ofRun run).entries.size = run.length := by
  induction run using List.reverseRecOn with
  | nil => rfl
  | append_singleton run m ih => rw [ofRun_append_singleton, size_made, ih, List.length_append]; rfl

/-- The node of each call is as it was made, but for the sibling after it; a node that had a link to
it from the start still has one. -/
theorem get?_ofRun {run : List (Making α)} {k : Nat} {m : Making α} (h : run[k]? = some m) :
    ∃ sibling, (ofRun run).get? ⟨k⟩ = some ⟨m.entry.cell, sibling⟩ ∧
      (sibling = m.entry.sibling ∨ ∃ next, sibling = .set next) := by
  induction run using List.reverseRecOn with
  | nil => cases h
  | append_singleton run last ih =>
    rw [ofRun_append_singleton]
    by_cases hk : k = (ofRun run).entries.size
    · have hlast : last = m := by
        rw [hk, size_ofRun, List.getElem?_concat_length] at h
        exact Option.some.inj h
      rw [hk, get?_made_new, hlast]
      exact ⟨_, rfl, .inl rfl⟩
    · have hrun : run[k]? = some m := by
        rw [size_ofRun] at hk
        rwa [List.getElem?_append_left (by
          have hlt := (List.getElem?_eq_some_iff.mp h).1
          rw [List.length_append, List.length_singleton] at hlt
          omega)] at h
      obtain ⟨sibling, hget, hsibling⟩ := ih hrun
      obtain ⟨sibling', hget', hsibling'⟩ := @get?_chained _ _ last.chained _ _ hget
      refine ⟨sibling', (get?_made_of_ne hk).trans hget', ?_⟩
      rcases hsibling' with rfl | hset
      · exact hsibling
      · exact .inr hset

-- What is stored under an identity was made by the call of that number.
theorem exists_call_of_get? {run : List (Making α)} {a : NodeId} {entry : Entry α}
    (h : (ofRun run).get? a = some entry) :
    ∃ m, run[a.index]? = some m ∧ entry.cell = m.entry.cell ∧
      (entry.sibling = m.entry.sibling ∨ ∃ next, entry.sibling = .set next) := by
  obtain ⟨hlt, -⟩ := Array.getElem?_eq_some_iff.mp h
  rw [size_ofRun] at hlt
  have hm : run[a.index]? = some run[a.index] := List.getElem?_eq_getElem hlt
  obtain ⟨sibling, hget, hsibling⟩ := get?_ofRun hm
  cases h.symm.trans hget
  exact ⟨_, hm, rfl, hsibling⟩

-- A link to a sibling comes from a call that was given both nodes, one right after the other.
theorem exists_call_of_next? {run : List (Making α)} {c b : NodeId}
    (h : (ofRun run).next? c = some b) : ∃ m ∈ run, Follows m.chained c b := by
  induction run using List.reverseRecOn with
  | nil => cases h
  | append_singleton run last ih =>
    rw [ofRun_append_singleton, next?_made] at h
    split at h
    · cases h
    · rcases next?_chained h with hlast | hrun
      · exact ⟨last, List.mem_append_right run List.mem_cons_self, hlast⟩
      · obtain ⟨m, hm, hfollows⟩ := ih hrun
        exact ⟨m, List.mem_append_left [last] hm, hfollows⟩

end Store

/-! ## 5. What calls are given -/

/-- Calls are given only nodes that were made before. -/
def BuiltBefore {α : Type} (run : List (Making α)) : Prop :=
  ∀ (k : Nat) (m : Making α), run[k]? = some m → ∀ c ∈ m.children, c.index < k

/-- The nodes that calls are given, as often as they are given. Those of the last call come first. -/
def given {α : Type} (run : List (Making α)) : List NodeId :=
  run.reverse.flatMap Making.children

section Given

variable {α : Type} {run : List (Making α)} {m m' : Making α} {b c : NodeId}

theorem builtBefore_iff :
    BuiltBefore run ↔ ∀ k : Fin run.length, ∀ c ∈ run[k].children, c.index < k := by
  constructor
  · exact fun h k => h k run[k] (List.getElem?_eq_getElem k.isLt)
  · intro h k m hm
    obtain ⟨hlt, rfl⟩ := List.getElem?_eq_some_iff.mp hm
    exact h ⟨k, hlt⟩

instance (run : List (Making α)) : Decidable (BuiltBefore run) :=
  decidable_of_iff _ builtBefore_iff.symm

theorem BuiltBefore.of_append {rest : List (Making α)} (h : BuiltBefore (run ++ rest)) :
    BuiltBefore run := by
  intro k m hm
  apply h k m
  rwa [List.getElem?_append_left (List.getElem?_eq_some_iff.mp hm).1]

theorem given_append (run rest : List (Making α)) :
    given (run ++ rest) = given rest ++ given run := by
  rw [given, List.reverse_append, List.flatMap_append]
  rfl

theorem mem_given_iff : c ∈ given run ↔ ∃ m ∈ run, c ∈ m.children := by
  simp only [given, List.mem_flatMap, List.mem_reverse]

-- What a later call is given stands before what an earlier call is given.
theorem sublist_given_of_lt {j k : Nat} (hjk : j < k) (hm : run[j]? = some m)
    (hm' : run[k]? = some m') (hb : b ∈ m.children) (hc : c ∈ m'.children) :
    List.Sublist [c, b] (given run) := by
  have htake : m ∈ run.take k := by
    apply List.mem_of_getElem? (i := j)
    rw [List.getElem?_take_of_lt hjk, hm]
  have hdrop : m' ∈ run.drop k := by
    apply List.mem_of_getElem? (i := 0)
    rw [List.getElem?_drop, Nat.add_zero, hm']
  rw [← List.take_append_drop k run, given_append]
  exact (List.singleton_sublist.mpr (mem_given_iff.mpr ⟨m', hdrop, hc⟩)).append
    (List.singleton_sublist.mpr (mem_given_iff.mpr ⟨m, htake, hb⟩))

theorem children_sublist_given (hm : m ∈ run) : m.children.Sublist (given run) :=
  List.sublist_flatten_of_mem (List.mem_map_of_mem (List.mem_reverse.mpr hm))

-- What a call chains stands in the order of the chain.
theorem Follows.sublist_given (hm : m ∈ run) (h : Follows m.chained c b) :
    List.Sublist [c, b] (given run) := by
  have hchained : m.chained.Sublist m.children := by
    cases m with
    | binary d l r => exact List.nil_sublist _
    | linked d cs => exact .refl cs
  exact (h.sublist.trans hchained).trans (children_sublist_given hm)

end Given

end TreeTraversal
