import TreeTraversal.Proofs.SearchTree.Standing

/-!
# Iterators and later insertions

Any number of iterators read one search tree while keys are inserted into it. Each request keeps the
tree ordered and every iterator where it stands, so what a single answer is holds of every answer in
every course of requests.
-/

namespace TreeTraversal

/-! ## 1. Sessions -/

/-- What is asked of a search tree and of the iterators over it. -/
inductive Request (κ : Type) where
  | insert (key : κ)
  | iterate
  | next (reader : Nat)

/-- A key that is asked to be inserted is from this set. -/
def Request.Within {κ : Type} (K : κ → Prop) : Request κ → Prop
  | .insert key => K key
  | .iterate => True
  | .next _ => True

/-- An iterator with the answers that it has given. -/
structure Reader (κ : Type) where
  iterator : Iterator := .start
  answers : List (Option κ) := []

/-- A search tree and the iterators obtained from it. -/
structure Session (κ : Type) where
  tree : SearchTree κ := {}
  readers : List (Reader κ) := []

variable {κ ε : Type}

/-- The keys among the answers. -/
def Reader.output (r : Reader κ) : List κ :=
  r.answers.filterMap id

/-- The reader after one more answer. -/
def Reader.ask (t : SearchTree κ) (r : Reader κ) : Reader κ :=
  ⟨(r.iterator.next t).2, r.answers ++ [(r.iterator.next t).1]⟩

namespace Session

variable [SearchKey κ ε]

/-- Grants one request. A key that is refused changes nothing. -/
def step (s : Session κ) : Request κ → Session κ
  | .insert key =>
    match s.tree.insert key with
    | .ok (tree, _) => { s with tree := tree }
    | .error _ => s
  | .iterate => { s with readers := s.readers ++ [{}] }
  | .next i => { s with readers := s.readers.modify i (Reader.ask s.tree) }

/-- Grants some requests, one after the other. -/
def run (s : Session κ) (requests : List (Request κ)) : Session κ :=
  requests.foldl step s

end Session

/-! ## 2. Readers of one tree -/

namespace Reader

variable [SearchKey κ ε] {K : κ → Prop} {t : SearchTree κ} {r : Reader κ}

/-- The reader is at its end and has said so, or stands where its output says. -/
def Tells (t : KeyTree κ) (r : Reader κ) : Prop :=
  (none ∈ r.answers ∧ r.iterator = .ended) ∨
    (none ∉ r.answers ∧ ∃ cursor, r.iterator = .running (Iterator.leftTurns cursor) cursor ∧
      StandsAt t r.output cursor)

/-- What a reader has answered are keys of the tree in ascending order, and it goes on from there. -/
structure Tracks (t : KeyTree κ) (r : Reader κ) : Prop where
  mem_keys : ∀ k ∈ r.output, k ∈ t.keys
  ascending : r.output.Pairwise Before
  tells : r.Tells t

theorem tracks_start (t : KeyTree κ) : Tracks t {} :=
  ⟨nofun, .nil, .inr ⟨nofun, [], rfl, .atRoot⟩⟩

theorem Tracks.grow {t t' : KeyTree κ} (h : Tracks t r) (hgrows : t.Grows t') : Tracks t' r := by
  refine ⟨fun k hk => KeyTree.mem_keys_of_grows hgrows (h.mem_keys k hk), h.ascending, ?_⟩
  rcases h.tells with hended | ⟨hrunning, cursor, hiterator, hstands⟩
  · exact .inl hended
  · exact .inr ⟨hrunning, cursor, hiterator, hstands.grow hgrows⟩

theorem output_ask (t : SearchTree κ) (r : Reader κ) :
    (r.ask t).output = r.output ++ (r.iterator.next t).1.toList := by
  rw [output, ask, List.filterMap_append]
  cases (r.iterator.next t).1 <;> rfl

-- A reader at its end stays there.
theorem Tracks.next_of_ended (h : Tracks t.root r) (hended : none ∈ r.answers) :
    r.iterator.next t = (none, .ended) := by
  rcases h.tells with ⟨-, hiterator⟩ | ⟨hrunning, -⟩
  · rw [hiterator]
    rfl
  · exact absurd hended hrunning

-- What is greater than the last key of an ascending list is greater than all of them.
theorem before_of_ahead (hK : StrictTotalOn K) {output : List κ} (hset : ∀ m ∈ output, K m)
    (hascending : output.Pairwise Before) {k : κ} (hk : K k) (hahead : Ahead output k) :
    ∀ m ∈ output, Before m k := by
  cases hlast : output.getLast? with
  | none =>
    rw [List.getLast?_eq_none_iff.mp hlast]
    exact nofun
  | some last =>
    have hbefore : Before last k := hahead last hlast
    rcases List.getLast?_eq_some_iff.mp hlast with ⟨init, rfl⟩
    rw [List.pairwise_append] at hascending
    intro m hm
    rcases List.mem_append.mp hm with hinit | hsame
    · have hmlast := hascending.2.2 m hinit last List.mem_cons_self
      exact hK.trans (hset m hm) (hset last (by simp)) hk hmlast hbefore
    · rw [List.mem_singleton.mp hsame]
      exact hbefore

-- The next answer of a reader that has not come to its end.
theorem Tracks.next_of_running (hK : StrictTotalOn K) (ht : t.root.Ordered K) (h : Tracks t.root r)
    (hrunning : none ∉ r.answers) :
    (r.iterator.next t = (none, .ended) ∧ ∀ m ∈ t.root.keys, ¬ Ahead r.output m) ∨
      ∃ k cursor, r.iterator.next t = (some k, .running (Iterator.leftTurns cursor) cursor) ∧
        IsNext t.root r.output k ∧ StandsAt t.root (r.output ++ [k]) cursor := by
  rcases h.tells with ⟨hended, -⟩ | ⟨-, cursor, hiterator, hstands⟩
  · exact absurd hended hrunning
  · rw [hiterator]
    exact hstands.next hK ht

theorem Tracks.next_eq_some_iff (hK : StrictTotalOn K) (ht : t.root.Ordered K) (h : Tracks t.root r)
    (hrunning : none ∉ r.answers) (k : κ) :
    (r.iterator.next t).1 = some k ↔ IsNext t.root r.output k := by
  rcases h.next_of_running hK ht hrunning with ⟨hnext, hnone⟩ | ⟨m, cursor, hnext, hm, -⟩
  · rw [hnext]
    constructor
    · intro hsome
      cases hsome
    · intro hk
      exact absurd hk.ahead (hnone k hk.mem_keys)
  · rw [hnext]
    constructor
    · intro hsome
      cases hsome
      exact hm
    · intro hk
      exact congrArg some (hm.unique hK ht hk)

theorem Tracks.next_eq_none_iff (hK : StrictTotalOn K) (ht : t.root.Ordered K) (h : Tracks t.root r)
    (hrunning : none ∉ r.answers) :
    (r.iterator.next t).1 = none ↔ ∀ k ∈ t.root.keys, ¬ Ahead r.output k := by
  rcases h.next_of_running hK ht hrunning with ⟨hnext, hnone⟩ | ⟨m, cursor, hnext, hm, -⟩
  · rw [hnext]
    exact iff_of_true rfl hnone
  · rw [hnext]
    apply iff_of_false
    · exact nofun
    · intro hnone
      exact hnone m hm.mem_keys hm.ahead

theorem Tracks.ask_of_none (h : Tracks t.root r) (hnext : r.iterator.next t = (none, .ended)) :
    Tracks t.root (r.ask t) := by
  have houtput : (r.ask t).output = r.output := by
    rw [output_ask, hnext]
    exact List.append_nil _
  refine ⟨by rw [houtput]; exact h.mem_keys, by rw [houtput]; exact h.ascending, .inl ⟨?_, ?_⟩⟩
  · rw [Reader.ask, hnext]
    exact List.mem_append_right _ List.mem_cons_self
  · rw [Reader.ask, hnext]

theorem Tracks.ask_of_some (hK : StrictTotalOn K) (ht : t.root.Ordered K) (h : Tracks t.root r)
    (hrunning : none ∉ r.answers) {k : κ} {cursor : Place}
    (hnext : r.iterator.next t = (some k, .running (Iterator.leftTurns cursor) cursor))
    (hk : IsNext t.root r.output k) (hstands : StandsAt t.root (r.output ++ [k]) cursor) :
    Tracks t.root (r.ask t) := by
  have houtput : (r.ask t).output = r.output ++ [k] := by
    rw [output_ask, hnext]
    rfl
  have hbefore : ∀ m ∈ r.output, Before m k :=
    before_of_ahead hK (fun m hm => ht.mem_set m (h.mem_keys m hm)) h.ascending
      (ht.mem_set k hk.mem_keys) hk.ahead
  refine ⟨?_, ?_, .inr ⟨?_, cursor, ?_, ?_⟩⟩
  · intro m hm
    rw [houtput, List.mem_append, List.mem_singleton] at hm
    rcases hm with hm | rfl
    · exact h.mem_keys m hm
    · exact hk.mem_keys
  · rw [houtput, List.pairwise_append]
    refine ⟨h.ascending, List.pairwise_singleton _ _, ?_⟩
    intro m hm b hb
    rw [List.mem_singleton.mp hb]
    exact hbefore m hm
  · rw [Reader.ask, hnext]
    simpa using hrunning
  · rw [Reader.ask, hnext]
  · rw [houtput]
    exact hstands

theorem Tracks.ask (hK : StrictTotalOn K) (ht : t.root.Ordered K) (h : Tracks t.root r) :
    Tracks t.root (r.ask t) := by
  by_cases hended : none ∈ r.answers
  · exact h.ask_of_none (h.next_of_ended hended)
  · rcases h.next_of_running hK ht hended with ⟨hnext, -⟩ | ⟨k, cursor, hnext, hk, hstands⟩
    · exact h.ask_of_none hnext
    · exact h.ask_of_some hK ht hended hnext hk hstands

/-- The reader has answered a key, or is still on its way there. -/
def Awaits (r : Reader κ) (k : κ) : Prop :=
  k ∈ r.output ∨ none ∉ r.answers ∧ ∀ m ∈ r.output, Before m k

-- A key that is in the tree is not passed over.
theorem Awaits.ask (hK : StrictTotalOn K) (ht : t.root.Ordered K) (h : Tracks t.root r) {k : κ}
    (hk : k ∈ t.root.keys) (hawaits : r.Awaits k) : (r.ask t).Awaits k := by
  rcases hawaits with hout | ⟨hrunning, hbefore⟩
  · left
    rw [output_ask]
    exact List.mem_append_left _ hout
  · have hahead : Ahead r.output k := fun last hlast => hbefore last (List.mem_of_getLast? hlast)
    -- the key is there to be found, so the reader does not come to its end here
    rcases h.next_of_running hK ht hrunning with ⟨-, hnone⟩ | ⟨m, cursor, hnext, hm, -⟩
    · exact absurd hahead (hnone k hk)
    · have houtput : (r.ask t).output = r.output ++ [m] := by
        rw [output_ask, hnext]
        rfl
      -- the answer is the key itself or one before it
      rcases hm.least k hk hahead with rfl | hmk
      · left
        rw [houtput]
        exact List.mem_append_right _ List.mem_cons_self
      · right
        constructor
        · rw [Reader.ask, hnext]
          simpa using hrunning
        · intro a ha
          rw [houtput, List.mem_append, List.mem_singleton] at ha
          rcases ha with ha | rfl
          · exact hbefore a ha
          · exact hmk

end Reader

/-! ## 3. Courses of requests -/

namespace Session

variable [SearchKey κ ε] {K : κ → Prop} {s : Session κ}

/-- The tree is ordered, and every reader tracks it. -/
structure Sound (K : κ → Prop) (s : Session κ) : Prop where
  ordered : s.tree.root.Ordered K
  tracks : ∀ r ∈ s.readers, r.Tracks s.tree.root

theorem sound_start : Sound K {} :=
  ⟨KeyTree.ordered_empty, nofun⟩

-- An insertion is refused for a key that is there, and otherwise adds the key to a tree that has all
-- forks where they were.
theorem step_insert (hK : StrictTotalOn K) (hs : s.Sound K) {key : κ} (hkey : K key) :
    (key ∈ s.tree.root.keys ∧ s.step (.insert key) = s) ∨
      ∃ tree, s.step (.insert key) = { s with tree := tree } ∧
        KeyTree.Adds K key s.tree.root tree.root ∧ s.tree.root.Grows tree.root := by
  rcases KeyTree.insert_of_ordered hK hkey hs.ordered with ⟨hmem, hdup⟩ | ⟨root, hins, hadds⟩
  · left
    refine ⟨hmem, ?_⟩
    simp only [step, SearchTree.insert, hdup, Except.map]
  · right
    refine ⟨⟨root, s.tree.size + 1⟩, ?_, hadds, KeyTree.grows_insert hins⟩
    simp only [step, SearchTree.insert, hins, Except.map]

theorem sound_step (hK : StrictTotalOn K) (hs : s.Sound K) {request : Request κ}
    (hkey : request.Within K) : (s.step request).Sound K := by
  cases request with
  | insert key =>
    rcases step_insert hK hs hkey with ⟨-, hsame⟩ | ⟨tree, hstep, hadds, hgrows⟩
    · rw [hsame]
      exact hs
    · rw [hstep]
      exact ⟨hadds.ordered, fun r hr => (hs.tracks r hr).grow hgrows⟩
  | iterate =>
    refine ⟨hs.ordered, fun r hr => ?_⟩
    rcases List.mem_append.mp hr with hold | hnew
    · exact hs.tracks r hold
    · rw [List.mem_singleton.mp hnew]
      exact Reader.tracks_start _
  | next i =>
    refine ⟨hs.ordered, fun r hr => ?_⟩
    -- the reader that is asked goes on, and all others are as they were
    rcases List.mem_iff_getElem?.mp hr with ⟨j, hj⟩
    rw [step, List.getElem?_modify] at hj
    rcases Option.map_eq_some_iff.mp hj with ⟨r₀, hr₀, rfl⟩
    have htracks := hs.tracks r₀ (List.mem_of_getElem? hr₀)
    by_cases hij : i = j
    · rw [if_pos hij]
      exact htracks.ask hK hs.ordered
    · rw [if_neg hij]
      exact htracks

theorem sound_run (hK : StrictTotalOn K) (hs : s.Sound K) (requests : List (Request κ))
    (hkeys : ∀ request ∈ requests, request.Within K) : (s.run requests).Sound K := by
  induction requests generalizing s with
  | nil => exact hs
  | cons request rest ih =>
    rcases List.forall_mem_cons.mp hkeys with ⟨hkey, hrest⟩
    exact ih (sound_step hK hs hkey) hrest

theorem mem_keys_step (hK : StrictTotalOn K) (hs : s.Sound K) {request : Request κ}
    (hkey : request.Within K) (k : κ) :
    k ∈ (s.step request).tree.root.keys ↔ k ∈ s.tree.root.keys ∨ request = .insert k := by
  cases request with
  | insert key =>
    rw [Request.insert.injEq]
    rcases step_insert hK hs hkey with ⟨hmem, hsame⟩ | ⟨tree, hstep, hadds, -⟩
    · rw [hsame]
      refine ⟨.inl, ?_⟩
      intro hk
      rcases hk with hk | rfl
      · exact hk
      · exact hmem
    · rw [hstep, hadds.mem_iff, or_comm, eq_comm]
  | iterate => simp [step]
  | next i => simp [step]

-- The tree has the keys that were inserted into it.
theorem mem_keys_run (hK : StrictTotalOn K) (hs : s.Sound K) (requests : List (Request κ))
    (hkeys : ∀ request ∈ requests, request.Within K) (k : κ) :
    k ∈ (s.run requests).tree.root.keys ↔ k ∈ s.tree.root.keys ∨ .insert k ∈ requests := by
  induction requests generalizing s with
  | nil => simp [run]
  | cons request rest ih =>
    rcases List.forall_mem_cons.mp hkeys with ⟨hkey, hrest⟩
    have hrun := ih (sound_step hK hs hkey) hrest
    show k ∈ ((s.step request).run rest).tree.root.keys ↔ _
    rw [hrun, mem_keys_step hK hs hkey, or_assoc, List.mem_cons, eq_comm]

theorem awaits_step (hK : StrictTotalOn K) (hs : s.Sound K) {i : Nat} {r : Reader κ}
    (hr : s.readers[i]? = some r) {k : κ} (hk : k ∈ s.tree.root.keys) (hawaits : r.Awaits k)
    (request : Request κ) : ∃ r', (s.step request).readers[i]? = some r' ∧ r'.Awaits k := by
  cases request with
  | insert key =>
    refine ⟨r, ?_, hawaits⟩
    rw [step]
    -- accepted or refused, the key is no business of the readers
    split
    · exact hr
    · exact hr
  | iterate =>
    refine ⟨r, ?_, hawaits⟩
    rw [step, List.getElem?_append_left (List.getElem?_eq_some_iff.mp hr).1]
    exact hr
  | next j =>
    rw [step, List.getElem?_modify, hr]
    by_cases hji : j = i
    · refine ⟨r.ask s.tree, by simp [hji], ?_⟩
      exact hawaits.ask hK hs.ordered (hs.tracks r (List.mem_of_getElem? hr)) hk
    · exact ⟨r, by simp [hji], hawaits⟩

/-- A key that is in the tree when a reader has not come to it yet is not passed over by the reader,
whatever is asked after that. -/
theorem awaits_run (hK : StrictTotalOn K) (hs : s.Sound K) (requests : List (Request κ))
    (hkeys : ∀ request ∈ requests, request.Within K) {i : Nat} {r : Reader κ}
    (hr : s.readers[i]? = some r) {k : κ} (hk : k ∈ s.tree.root.keys) (hawaits : r.Awaits k) :
    ∃ r', (s.run requests).readers[i]? = some r' ∧ r'.Awaits k := by
  induction requests generalizing s r with
  | nil => exact ⟨r, hr, hawaits⟩
  | cons request rest ih =>
    rcases List.forall_mem_cons.mp hkeys with ⟨hkey, hrest⟩
    rcases awaits_step hK hs hr hk hawaits request with ⟨r₁, hr₁, hawaits₁⟩
    have hk₁ := (mem_keys_step hK hs hkey k).mpr (.inl hk)
    exact ih (sound_step hK hs hkey) hrest hr₁ hk₁ hawaits₁

/-- **Iterators survive insertions.** After any requests, the next answer of an iterator that has not
come to its end is the least key of the tree, as it is then, that is greater than the key answered
last; it comes to its end if there is no such key, and stays there. So what it answers ascends, holds
no key twice, and passes over no key that is in the tree before the iterator has come to its place. -/
theorem next_is_least_ahead (hK : StrictTotalOn K) (requests : List (Request κ))
    (hkeys : ∀ request ∈ requests, request.Within K) (i : Nat) (r : Reader κ)
    (hr : (run {} requests).readers[i]? = some r) :
    let t := (run {} requests).tree
    (∀ k, k ∈ t.root.keys ↔ .insert k ∈ requests) ∧
    (none ∉ r.answers →
      (∀ k, (r.iterator.next t).1 = some k ↔ IsNext t.root r.output k) ∧
      ((r.iterator.next t).1 = none ↔ ∀ k ∈ t.root.keys, ¬ Ahead r.output k)) ∧
    (none ∈ r.answers → (r.iterator.next t).1 = none) ∧
    r.output.Pairwise Before ∧
    r.output.Nodup ∧
    ∀ later : List (Request κ), (∀ request ∈ later, request.Within K) →
      ∀ k ∈ t.root.keys, none ∉ r.answers → (∀ m ∈ r.output, Before m k) →
        ∃ r', ((run {} requests).run later).readers[i]? = some r' ∧
          (k ∈ r'.output ∨ none ∉ r'.answers ∧ ∀ m ∈ r'.output, Before m k) := by
  intro t
  have hsound : (run {} requests).Sound K := sound_run hK sound_start requests hkeys
  have htracks : r.Tracks t.root := hsound.tracks r (List.mem_of_getElem? hr)
  refine ⟨fun k => ?_, fun hrunning => ?_, fun hended => ?_, htracks.ascending, ?_, ?_⟩
  · rw [mem_keys_run hK sound_start requests hkeys]
    exact ⟨fun h => h.resolve_left nofun, .inr⟩
  · exact ⟨htracks.next_eq_some_iff hK hsound.ordered hrunning,
      htracks.next_eq_none_iff hK hsound.ordered hrunning⟩
  · rw [htracks.next_of_ended hended]
  · apply htracks.ascending.imp_of_mem
    intro a b ha _ hab hsame
    subst hsame
    exact hK.irrefl (hsound.ordered.mem_set a (htracks.mem_keys a ha)) hab
  · intro later hlater k hk hrunning hbefore
    exact awaits_run hK hsound later hlater hr hk (.inr ⟨hrunning, hbefore⟩)

/-- Keys arrive before, at and after the place of an iterator that has begun. -/
def growing (key : Nat → Value) : List (Request Value) :=
  [.insert (key 2), .insert (key 4), .iterate, .next 0, .insert (key 1), .insert (key 3),
    .insert (key 2), .next 0]

/-- A word of some letters. -/
def word (n : Nat) : String :=
  String.ofList (List.replicate n 'a')

theorem growing_next_is_four :
    (∃ r, (run {} (growing fun n => .int n)).readers[0]? = some r ∧ r.output = [.int 2, .int 3] ∧
      IsNext (run {} (growing fun n => .int n)).tree.root r.output (.int 4)) ∧
    ∃ r, (run {} (growing fun n => .str (word n))).readers[0]? = some r ∧
      r.output = [.str (word 2), .str (word 3)] ∧
      IsNext (run {} (growing fun n => .str (word n))).tree.root r.output (.str (word 4)) := by
  constructor
  · have hkeys : ∀ request ∈ growing (fun n => .int n),
        request.Within fun v : Value => ∃ i : Int, v = .int i := by
      simp [growing, Request.Within]
    have hrunning : none ∉ [some (Value.int 2), some (.int 3)] := by simp
    have hnext := (next_is_least_ahead strictTotalOn_int _ hkeys 0 _ rfl).2.1 hrunning
    exact ⟨_, rfl, rfl, (hnext.1 (.int 4)).mp rfl⟩
  · have hkeys : ∀ request ∈ growing (fun n => .str (word n)),
        request.Within fun v : Value => ∃ s : String, v = .str s := by
      simp [growing, Request.Within]
    have hrunning : none ∉ [some (Value.str (word 2)), some (.str (word 3))] := by simp
    have hnext := (next_is_least_ahead strictTotalOn_str _ hkeys 0 _ rfl).2.1 hrunning
    exact ⟨_, rfl, rfl, (hnext.1 (.str (word 4))).mp rfl⟩

end Session

end TreeTraversal
