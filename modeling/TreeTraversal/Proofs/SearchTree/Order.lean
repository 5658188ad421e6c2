import Mathlib.Data.String.Basic
import TreeTraversal.SearchTree.Basic

/-!
# Search trees in order

Search trees ask nothing of the comparison of their keys. On a set of keys that are always compared,
and for which the comparison is a strict total order, the keys of a search tree stand in ascending
order from its left to its right. Two such sets are whole numbers and texts. A tree with one key more
has all its places where they were.
-/

namespace TreeTraversal

/-! ## 1. Orders of keys -/

/-- Whether one key is less than another. -/
def Before {κ ε : Type} [SearchKey κ ε] (a b : κ) : Prop :=
  SearchKey.lt a b = .ok true

/-- On these keys the comparison never fails and is a strict total order. -/
structure StrictTotalOn {κ ε : Type} [SearchKey κ ε] (K : κ → Prop) : Prop where
  decided : ∀ {a b}, K a → K b → ∃ less, SearchKey.lt a b = .ok less
  irrefl : ∀ {a}, K a → ¬ Before a a
  trans : ∀ {a b c}, K a → K b → K c → Before a b → Before b c → Before a c
  total : ∀ {a b}, K a → K b → Before a b ∨ a = b ∨ Before b a

-- A comparison that does not put one key before another says so.
theorem StrictTotalOn.lt_eq_false {κ ε : Type} [SearchKey κ ε] {K : κ → Prop} (hK : StrictTotalOn K)
    {a b : κ} (ha : K a) (hb : K b) (h : ¬ Before a b) : SearchKey.lt a b = .ok false := by
  rcases hK.decided ha hb with ⟨less, hless⟩
  cases less with
  | true => exact absurd hless h
  | false => exact hless

theorem StrictTotalOn.asymm {κ ε : Type} [SearchKey κ ε] {K : κ → Prop} (hK : StrictTotalOn K)
    {a b : κ} (ha : K a) (hb : K b) (h : Before a b) : ¬ Before b a :=
  fun hba => hK.irrefl ha (hK.trans ha hb ha h hba)

theorem less_int (i j : Int) : SearchKey.lt (Value.int i) (Value.int j) = .ok (decide (i < j)) := by
  simp [SearchKey.lt, Value.less, Value.lessScalar, Value.number?, Number.Exact.less]

theorem less_str (s t : String) : SearchKey.lt (Value.str s) (Value.str t) = .ok (decide (s < t)) := by
  simp [SearchKey.lt, Value.less, Value.lessScalar, Value.number?]

-- Keys that are compared as the elements of a linear order are.
theorem strictTotalOn_of_linearOrder {κ ε β : Type} [SearchKey κ ε] [LinearOrder β] (key : β → κ)
    (h : ∀ b c, SearchKey.lt (key b) (key c) = .ok (decide (b < c))) :
    StrictTotalOn fun k : κ => ∃ b, k = key b := by
  have hbefore : ∀ b c, Before (key b) (key c) ↔ b < c := by
    intro b c
    rw [Before, h]
    simp
  constructor
  · rintro _ _ ⟨b, rfl⟩ ⟨c, rfl⟩
    exact ⟨_, h b c⟩
  · rintro _ ⟨b, rfl⟩
    rw [hbefore]
    exact lt_irrefl b
  · rintro _ _ _ ⟨b, rfl⟩ ⟨c, rfl⟩ ⟨d, rfl⟩
    rw [hbefore, hbefore, hbefore]
    exact lt_trans
  · rintro _ _ ⟨b, rfl⟩ ⟨c, rfl⟩
    rw [hbefore, hbefore]
    rcases lt_trichotomy b c with hlt | rfl | hgt
    · exact .inl hlt
    · exact .inr (.inl rfl)
    · exact .inr (.inr hgt)

theorem strictTotalOn_int : StrictTotalOn fun v : Value => ∃ i : Int, v = .int i :=
  strictTotalOn_of_linearOrder Value.int less_int

theorem strictTotalOn_str : StrictTotalOn fun v : Value => ∃ s : String, v = .str s :=
  strictTotalOn_of_linearOrder Value.str less_str

namespace KeyTree

variable {κ ε : Type}

/-! ## 2. Keys -/

/-- The keys of a tree from left to right. -/
def keys : KeyTree κ → List κ
  | empty => []
  | fork l k r => l.keys ++ k :: r.keys

section Insert

variable [SearchKey κ ε] {key k : κ} {l r t t' : KeyTree κ}

/-- By the comparisons that are made, the first key belongs to the left of the second. -/
def GoesLeft (key k : κ) : Prop :=
  SearchKey.lt key k = .ok true

/-- By the comparisons that are made, the first key belongs to the right of the second. -/
def GoesRight (key k : κ) : Prop :=
  SearchKey.lt key k = .ok false ∧ SearchKey.lt k key = .ok true

theorem insert_of_less (h : SearchKey.lt key k = .ok true) :
    (fork l k r).insert key = (l.insert key).map fun l => fork l k r := by
  simp only [insert, h]

theorem insert_of_greater (h : SearchKey.lt key k = .ok false) (h' : SearchKey.lt k key = .ok true) :
    (fork l k r).insert key = (r.insert key).map fun r => fork l k r := by
  simp only [insert, h, h']

omit [SearchKey κ ε] in
theorem exists_of_map_ok {result : Except (InsertError κ ε) (KeyTree κ)} {f : KeyTree κ → KeyTree κ}
    (h : result.map f = .ok t') : ∃ t, result = .ok t ∧ t' = f t := by
  cases result with
  | error e => cases h
  | ok t => exact ⟨t, rfl, (Except.ok.inj h).symm⟩

-- A key that was put into a tree was put to the side of its root where it belongs.
theorem insert_fork_ok (h : (fork l k r).insert key = .ok t') :
    (GoesLeft key k ∧ ∃ l', l.insert key = .ok l' ∧ t' = fork l' k r) ∨
      GoesRight key k ∧ ∃ r', r.insert key = .ok r' ∧ t' = fork l k r' := by
  cases hless : SearchKey.lt key k with
  | error e => simp [insert, hless] at h
  | ok less =>
    cases less with
    | true =>
      left
      rw [insert_of_less hless] at h
      exact ⟨hless, exists_of_map_ok h⟩
    | false =>
      cases hgreater : SearchKey.lt k key with
      | error e => simp [insert, hless, hgreater] at h
      | ok greater =>
        cases greater with
        | false => simp [insert, hless, hgreater] at h
        | true =>
          right
          rw [insert_of_greater hless hgreater] at h
          exact ⟨⟨hless, hgreater⟩, exists_of_map_ok h⟩

end Insert

/-! ## 3. Ordered trees -/

section Ordered

variable [SearchKey κ ε] {K : κ → Prop} {key k : κ} {l r t t' : KeyTree κ}

/-- The keys are from this set, and ascend from left to right. -/
structure Ordered (K : κ → Prop) (t : KeyTree κ) : Prop where
  mem_set : ∀ k ∈ t.keys, K k
  ascending : t.keys.Pairwise Before

theorem ordered_fork : (fork l k r).Ordered K ↔
    l.Ordered K ∧ r.Ordered K ∧ K k ∧ (∀ a ∈ l.keys, Before a k) ∧ (∀ b ∈ r.keys, Before k b) ∧
      ∀ a ∈ l.keys, ∀ b ∈ r.keys, Before a b := by
  constructor
  · intro h
    rcases h with ⟨hset, hpairs⟩
    rw [keys] at hset hpairs
    rw [List.pairwise_append, List.pairwise_cons] at hpairs
    rcases hpairs with ⟨hl, ⟨hkr, hr⟩, hlk⟩
    refine ⟨⟨fun a ha => ?_, hl⟩, ⟨fun a ha => ?_, hr⟩, ?_, fun a ha => ?_, hkr, fun a ha b hb => ?_⟩
    · exact hset a (List.mem_append_left _ ha)
    · exact hset a (List.mem_append_right _ (List.mem_cons_of_mem k ha))
    · exact hset k (List.mem_append_right _ List.mem_cons_self)
    · exact hlk a ha k List.mem_cons_self
    · exact hlk a ha b (List.mem_cons_of_mem k hb)
  · intro h
    rcases h with ⟨⟨hsetl, hl⟩, ⟨hsetr, hr⟩, hk, hlk, hkr, hlr⟩
    constructor
    · intro a ha
      rw [keys, List.mem_append, List.mem_cons] at ha
      rcases ha with ha | rfl | ha
      · exact hsetl a ha
      · exact hk
      · exact hsetr a ha
    · rw [keys, List.pairwise_append, List.pairwise_cons]
      refine ⟨hl, ⟨hkr, hr⟩, ?_⟩
      intro a ha b hb
      rcases List.mem_cons.mp hb with rfl | hb
      · exact hlk a ha
      · exact hlr a ha b hb

theorem ordered_empty : (empty : KeyTree κ).Ordered K :=
  ⟨nofun, .nil⟩

/-- A tree is ordered and has the keys of another tree and one key besides. -/
structure Adds (K : κ → Prop) (key : κ) (t t' : KeyTree κ) : Prop where
  ordered : t'.Ordered K
  mem_iff : ∀ a, a ∈ t'.keys ↔ a = key ∨ a ∈ t.keys

theorem adds_empty (hkey : K key) : Adds K key empty (fork empty key empty) := by
  refine ⟨ordered_fork.mpr ⟨ordered_empty, ordered_empty, hkey, nofun, nofun, nofun⟩, ?_⟩
  intro a
  simp [keys]

-- What is less than the key at the root is less than all to the right of it.
theorem adds_left (hK : StrictTotalOn K) (ht : (fork l k r).Ordered K) (hkey : K key)
    (hless : Before key k) {l' : KeyTree κ} (h : Adds K key l l') :
    Adds K key (fork l k r) (fork l' k r) := by
  rcases ordered_fork.mp ht with ⟨-, hr, hk, hlk, hkr, hlr⟩
  refine ⟨ordered_fork.mpr ⟨h.ordered, hr, hk, ?_, hkr, ?_⟩, ?_⟩
  · intro a ha
    rcases (h.mem_iff a).mp ha with rfl | ha
    · exact hless
    · exact hlk a ha
  · intro a ha b hb
    rcases (h.mem_iff a).mp ha with rfl | ha
    · exact hK.trans hkey hk (hr.mem_set b hb) hless (hkr b hb)
    · exact hlr a ha b hb
  · intro a
    simp only [keys, List.mem_append, h.mem_iff, or_assoc]

-- What the key at the root is less than, all to the left of it is less than.
theorem adds_right (hK : StrictTotalOn K) (ht : (fork l k r).Ordered K) (hkey : K key)
    (hgreater : Before k key) {r' : KeyTree κ} (h : Adds K key r r') :
    Adds K key (fork l k r) (fork l k r') := by
  rcases ordered_fork.mp ht with ⟨hl, -, hk, hlk, hkr, hlr⟩
  refine ⟨ordered_fork.mpr ⟨hl, h.ordered, hk, hlk, ?_, ?_⟩, ?_⟩
  · intro b hb
    rcases (h.mem_iff b).mp hb with rfl | hb
    · exact hgreater
    · exact hkr b hb
  · intro a ha b hb
    rcases (h.mem_iff b).mp hb with rfl | hb
    · exact hK.trans (hl.mem_set a ha) hk hkey (hlk a ha) hgreater
    · exact hlr a ha b hb
  · intro a
    simp only [keys, List.mem_append, List.mem_cons, h.mem_iff]
    tauto

/-- In an ordered tree a key is either found, and refused as present, or added. -/
theorem insert_of_ordered (hK : StrictTotalOn K) (hkey : K key) (ht : t.Ordered K) :
    (key ∈ t.keys ∧ t.insert key = .error (.present key)) ∨
      ∃ t', t.insert key = .ok t' ∧ Adds K key t t' := by
  induction t with
  | empty => exact .inr ⟨_, rfl, adds_empty hkey⟩
  | fork l k r ihl ihr =>
    rcases ordered_fork.mp ht with ⟨hl, hr, hk, -⟩
    rcases hK.total hkey hk with hless | rfl | hgreater
    · rw [insert_of_less hless]
      rcases ihl hl with ⟨hmem, hdup⟩ | ⟨l', hins, hadds⟩
      · left
        rw [hdup]
        exact ⟨List.mem_append_left _ hmem, rfl⟩
      · right
        rw [hins]
        exact ⟨_, rfl, adds_left hK ht hkey hless hadds⟩
    · left
      have hnone : SearchKey.lt key key = .ok false := hK.lt_eq_false hk hk (hK.irrefl hk)
      refine ⟨List.mem_append_right _ List.mem_cons_self, ?_⟩
      simp only [insert, hnone]
    · rw [insert_of_greater (hK.lt_eq_false hkey hk (hK.asymm hk hkey hgreater)) hgreater]
      rcases ihr hr with ⟨hmem, hdup⟩ | ⟨r', hins, hadds⟩
      · left
        rw [hdup]
        exact ⟨List.mem_append_right _ (List.mem_cons_of_mem k hmem), rfl⟩
      · right
        rw [hins]
        exact ⟨_, rfl, adds_right hK ht hkey hgreater hadds⟩

end Ordered

/-! ## 4. Growth -/

section Growth

variable {t t' : KeyTree κ}

/-- One tree has all forks of another where they were. -/
inductive Grows : KeyTree κ → KeyTree κ → Prop
  | empty (t : KeyTree κ) : Grows .empty t
  | fork (k : κ) {l l' r r' : KeyTree κ} (hl : Grows l l') (hr : Grows r r') :
    Grows (.fork l k r) (.fork l' k r')

theorem grows_refl (t : KeyTree κ) : Grows t t := by
  induction t with
  | empty => exact .empty _
  | fork l k r ihl ihr => exact .fork k ihl ihr

theorem grows_insert [SearchKey κ ε] {key : κ} (h : t.insert key = .ok t') : Grows t t' := by
  induction t generalizing t' with
  | empty => exact .empty t'
  | fork l k r ihl ihr =>
    rcases insert_fork_ok h with ⟨-, l', hl, rfl⟩ | ⟨-, r', hr, rfl⟩
    · exact .fork k (ihl hl) (grows_refl r)
    · exact .fork k (grows_refl l) (ihr hr)

theorem mem_keys_of_grows (h : Grows t t') {k : κ} (hk : k ∈ t.keys) : k ∈ t'.keys := by
  induction h with
  | empty t => cases hk
  | fork key hl hr ihl ihr =>
    rw [keys, List.mem_append, List.mem_cons] at hk ⊢
    rcases hk with hk | rfl | hk
    · exact .inl (ihl hk)
    · exact .inr (.inl rfl)
    · exact .inr (.inr (ihr hk))

end Growth

end KeyTree

end TreeTraversal
