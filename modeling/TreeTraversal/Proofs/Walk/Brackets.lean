import Mathlib.Data.List.Induction
import TreeTraversal.Proofs.Walk.Nesting

/-!
# Hooks in any order

Hooks that need not nest. Each `leave` belongs to the last `enter` before it that has none yet; some
may find none, and some levels may stay open. Hooks nest if nothing is left over on either side, which
can be read off the counts: no beginning leaves more levels than it enters, and all together leave as
many.
-/

namespace TreeTraversal

variable {β : Type}

/-! ## 1. Counts -/

namespace Event

def isEnter : Event β → Bool
  | .visit _ => false
  | .enter => true
  | .leave => false

def isLeave : Event β → Bool
  | .visit _ => false
  | .enter => false
  | .leave => true

/-- Whether the hook enters or leaves a level. -/
def isBracket : Event β → Bool
  | .visit _ => false
  | .enter => true
  | .leave => true

end Event

/-- The number of levels that hooks enter less the number of levels that they leave. -/
def height (calls : List (Event β)) : Int :=
  calls.countP Event.isEnter - calls.countP Event.isLeave

@[simp]
theorem height_nil : height ([] : List (Event β)) = 0 :=
  rfl

@[simp]
theorem height_visit (b : β) : height [.visit b] = 0 :=
  rfl

@[simp]
theorem height_enter : height [(.enter : Event β)] = 1 :=
  rfl

@[simp]
theorem height_leave : height [(.leave : Event β)] = -1 :=
  rfl

theorem height_append (xs ys : List (Event β)) : height (xs ++ ys) = height xs + height ys := by
  unfold height
  rw [List.countP_append, List.countP_append]
  omega

theorem height_cons (event : Event β) (rest : List (Event β)) :
    height (event :: rest) = height [event] + height rest :=
  height_append [event] rest

/-- The number of `leave` for which there is no `enter`. An `enter` answers for one of those after
it. -/
def overdraft : List (Event β) → Nat
  | [] => 0
  | .visit _ :: rest => overdraft rest
  | .enter :: rest => overdraft rest - 1
  | .leave :: rest => overdraft rest + 1

-- A beginning of some hooks is empty, or the first hook with a beginning of the rest behind it.
theorem heights_cons_iff (k : Int) (hk : 0 ≤ k) (event : Event β) (rest : List (Event β)) :
    (∀ before, before <+: event :: rest → 0 ≤ k + height before) ↔
      ∀ before, before <+: rest → 0 ≤ k + height [event] + height before := by
  constructor
  · intro h before hbefore
    have hcons := h (event :: before) (List.cons_prefix_cons.mpr ⟨rfl, hbefore⟩)
    rwa [height_cons, ← Int.add_assoc] at hcons
  · intro h before hbefore
    rcases List.prefix_cons_iff.mp hbefore with rfl | ⟨later, rfl, hlater⟩
    · rwa [height_nil, Int.add_zero]
    · rw [height_cons, ← Int.add_assoc]
      exact h later hlater

-- No beginning of the hooks goes further below the level where they start.
theorem overdraft_le_iff (calls : List (Event β)) (k : Nat) :
    overdraft calls ≤ k ↔ ∀ before, before <+: calls → 0 ≤ k + height before := by
  induction calls generalizing k with
  | nil => simp [overdraft]
  | cons event rest ih =>
    rw [heights_cons_iff k (Int.natCast_nonneg k)]
    cases event with
    | visit b =>
      rw [height_visit, Int.add_zero]
      exact ih k
    | enter =>
      have hone : overdraft (.enter :: rest) ≤ k ↔ overdraft rest ≤ k + 1 := by
        simp only [overdraft]
        omega
      rw [hone, ih (k + 1)]
      rfl
    | leave =>
      cases k with
      | zero =>
        -- the first hook is below already
        refine iff_of_false (Nat.not_succ_le_zero _) fun h => ?_
        have hbelow := h [] List.nil_prefix
        rw [height_leave, height_nil] at hbelow
        omega
      | succ k =>
        have hone : overdraft (.leave :: rest) ≤ k + 1 ↔ overdraft rest ≤ k := by
          simp only [overdraft]
          omega
        have hlevel : ((k + 1 : Nat) : Int) + height [(.leave : Event β)] = k := by
          rw [height_leave]
          omega
        rw [hone, hlevel]
        exact ih k

theorem overdraft_eq_zero_iff (calls : List (Event β)) :
    overdraft calls = 0 ↔ ∀ before, before <+: calls → 0 ≤ height before := by
  rw [← Nat.le_zero, overdraft_le_iff]
  simp

/-! ## 2. Levels that stay open -/

/-- What was told before each `enter` whose level is not left again, the outermost first. -/
def openings : List (Event β) → List (List (Event β))
  | [] => []
  | .visit b :: rest => (openings rest).map (.visit b :: ·)
  | .enter :: rest =>
    if overdraft rest = 0 then [] :: (openings rest).map (.enter :: ·)
    else (openings rest).map (.enter :: ·)
  | .leave :: rest => (openings rest).map (.leave :: ·)

-- Each hook is part of a pair or left over, on one side or the other.
theorem length_openings (calls : List (Event β)) :
    ((openings calls).length : Int) = height calls + overdraft calls := by
  induction calls with
  | nil => rfl
  | cons event rest ih =>
    rw [height_cons]
    cases event with
    | visit b =>
      rw [openings, List.length_map, ih, height_visit, overdraft, Int.zero_add]
    | enter =>
      rw [height_enter, openings, overdraft]
      by_cases hzero : overdraft rest = 0
      · rw [if_pos hzero, List.length_cons, List.length_map]
        omega
      · rw [if_neg hzero, List.length_map]
        omega
    | leave =>
      rw [openings, List.length_map, ih, height_leave, overdraft]
      omega

/-! ## 3. Hooks that nest -/

theorem Nested.height_eq {calls : List (Event β)} (h : Nested calls) : height calls = 0 := by
  induction h with
  | nil => rfl
  | visit b _ ih => rw [height_cons, height_visit, ih, Int.add_zero]
  | level _ _ ihinner ihrest =>
    rw [height_cons, height_append, height_cons .leave, ihinner, ihrest, height_enter, height_leave]
    rfl

theorem Nested.overdraft_append {calls : List (Event β)} (h : Nested calls)
    (later : List (Event β)) : overdraft (calls ++ later) = overdraft later := by
  induction h generalizing later with
  | nil => rfl
  | visit b _ ih => exact ih later
  | @level inner rest _ _ ihinner ihrest =>
    rw [List.cons_append, List.append_assoc, List.cons_append, overdraft, ihinner, overdraft,
      Nat.add_sub_cancel, ihrest]

/-- Hooks that nest, up to so many levels that they leave without having entered them. -/
inductive Closing : Nat → List (Event β) → Prop
  | nested {calls : List (Event β)} (h : Nested calls) : Closing 0 calls
  | leave {inner rest : List (Event β)} {k : Nat} (hinner : Nested inner)
      (hrest : Closing k rest) : Closing (k + 1) (inner ++ .leave :: rest)

theorem Closing.prepend {first calls : List (Event β)} {k : Nat} (hfirst : Nested first)
    (h : Closing k calls) : Closing k (first ++ calls) := by
  cases h with
  | nested h => exact .nested (hfirst.append h)
  | leave hinner hrest =>
    rw [← List.append_assoc]
    exact .leave (hfirst.append hinner) hrest

-- An `enter` before the hooks answers for the first of the levels that they leave.
theorem Closing.enter {calls : List (Event β)} {k : Nat} (h : Closing (k + 1) calls) :
    Closing k (.enter :: calls) := by
  cases h with
  | @leave inner rest _ hinner hrest =>
    have hlevel := hrest.prepend hinner.wrap
    rwa [List.cons_append, List.append_assoc] at hlevel

theorem closing_of_openings {calls : List (Event β)} (h : openings calls = []) :
    Closing (overdraft calls) calls := by
  induction calls with
  | nil => exact .nested .nil
  | cons event rest ih =>
    cases event with
    | visit b =>
      have hrest := ih (List.map_eq_nil_iff.mp h)
      exact hrest.prepend (.visit b .nil)
    | enter =>
      rw [openings] at h
      by_cases hzero : overdraft rest = 0
      · rw [if_pos hzero] at h
        cases h
      · rw [if_neg hzero] at h
        have hrest := ih (List.map_eq_nil_iff.mp h)
        obtain ⟨k, hk⟩ := Nat.exists_eq_succ_of_ne_zero hzero
        rw [hk] at hrest
        rw [overdraft, hk]
        exact hrest.enter
    | leave => exact .leave .nil (ih (List.map_eq_nil_iff.mp h))

theorem nested_iff_overdraft (calls : List (Event β)) :
    Nested calls ↔ height calls = 0 ∧ overdraft calls = 0 := by
  constructor
  · intro h
    have hoverdraft := h.overdraft_append []
    rw [List.append_nil] at hoverdraft
    exact ⟨h.height_eq, hoverdraft⟩
  · rintro ⟨hheight, hoverdraft⟩
    have hlength := length_openings calls
    have hopen : openings calls = [] := by
      apply List.eq_nil_of_length_eq_zero
      omega
    have hclosing := closing_of_openings hopen
    rw [hoverdraft] at hclosing
    cases hclosing with
    | nested h => exact h

/-- Hooks nest if and only if they leave as many levels as they enter, and no beginning of them leaves
more. -/
theorem nested_iff_heights (calls : List (Event β)) :
    Nested calls ↔ height calls = 0 ∧ ∀ before, before <+: calls → 0 ≤ height before := by
  rw [nested_iff_overdraft, overdraft_eq_zero_iff]

-- Visits are neither here nor there.
theorem nested_brackets_iff (calls : List (Event β)) :
    Nested (calls.filter Event.isBracket) ↔ Nested calls := by
  have hcounts : height (calls.filter Event.isBracket) = height calls ∧
      overdraft (calls.filter Event.isBracket) = overdraft calls := by
    induction calls with
    | nil => exact ⟨rfl, rfl⟩
    | cons event rest ih =>
      obtain ⟨hheight, hoverdraft⟩ := ih
      cases event with
      | visit b =>
        rw [List.filter_cons_of_neg (by simp [Event.isBracket]), height_cons, height_visit,
          Int.zero_add, overdraft]
        exact ⟨hheight, hoverdraft⟩
      | enter =>
        rw [List.filter_cons_of_pos rfl, height_cons, height_cons _ rest, hheight, overdraft,
          overdraft, hoverdraft]
        exact ⟨rfl, rfl⟩
      | leave =>
        rw [List.filter_cons_of_pos rfl, height_cons, height_cons _ rest, hheight, overdraft,
          overdraft, hoverdraft]
        exact ⟨rfl, rfl⟩
  rw [nested_iff_overdraft, nested_iff_overdraft, hcounts.1, hcounts.2]

/-! ## 4. Which levels stay open -/

/-- Whether hooks leave the level in which they start: at some `leave`, with hooks that nest before
it. -/
def LeavesLevel (calls : List (Event β)) : Prop :=
  ∃ inner rest, Nested inner ∧ calls = inner ++ .leave :: rest

-- Before the first `leave` that finds no `enter`, or the second one, or any other, the hooks nest but
-- for the ones before it.
theorem exists_closing_of_lt_overdraft {calls : List (Event β)} {k : Nat}
    (h : k < overdraft calls) :
    ∃ before rest, Closing k before ∧ calls = before ++ .leave :: rest := by
  induction calls generalizing k with
  | nil => cases h
  | cons event rest ih =>
    cases event with
    | visit b =>
      obtain ⟨before, later, hbefore, rfl⟩ := ih h
      exact ⟨.visit b :: before, later, hbefore.prepend (.visit b .nil), rfl⟩
    | enter =>
      obtain ⟨before, later, hbefore, rfl⟩ := ih (Nat.lt_sub_iff_add_lt.mp h)
      exact ⟨.enter :: before, later, hbefore.enter, rfl⟩
    | leave =>
      cases k with
      | zero => exact ⟨[], rest, .nested .nil, rfl⟩
      | succ k =>
        obtain ⟨before, later, hbefore, rfl⟩ := ih (Nat.lt_of_succ_lt_succ h)
        exact ⟨.leave :: before, later, .leave .nil hbefore, rfl⟩

theorem overdraft_eq_zero_iff_not_leavesLevel (calls : List (Event β)) :
    overdraft calls = 0 ↔ ¬ LeavesLevel calls := by
  constructor
  · rintro hzero ⟨inner, rest, hinner, rfl⟩
    rw [hinner.overdraft_append] at hzero
    cases hzero
  · intro hstays
    by_contra hne
    obtain ⟨before, rest, hbefore, rfl⟩ :=
      exists_closing_of_lt_overdraft (Nat.pos_of_ne_zero hne)
    cases hbefore with
    | nested hinner => exact hstays ⟨before, rest, hinner, rfl⟩

theorem mem_openings_cons_iff (event : Event β) (rest before : List (Event β)) :
    before ∈ openings (event :: rest) ↔
      before = [] ∧ event = .enter ∧ overdraft rest = 0 ∨
        ∃ later ∈ openings rest, event :: later = before := by
  cases event with
  | visit b => simp [openings]
  | enter =>
    rw [openings]
    by_cases hzero : overdraft rest = 0 <;> simp [hzero]
  | leave => simp [openings]

/-- A level is open at the end if it was entered and what came after that has not left it. -/
theorem mem_openings_iff (calls before : List (Event β)) :
    before ∈ openings calls ↔ ∃ after, calls = before ++ .enter :: after ∧ ¬ LeavesLevel after := by
  simp only [← overdraft_eq_zero_iff_not_leavesLevel]
  induction calls generalizing before with
  | nil => simp [openings]
  | cons event rest ih =>
    rw [mem_openings_cons_iff]
    cases before with
    | nil => simp
    | cons first before => simp [ih, and_comm, and_left_comm]

theorem pairwise_openings (calls : List (Event β)) :
    (openings calls).Pairwise fun a b => a.length < b.length := by
  have hmap : ∀ (event : Event β) (rest : List (Event β)),
      (openings rest).Pairwise (fun a b => a.length < b.length) →
        ((openings rest).map (event :: ·)).Pairwise fun a b => a.length < b.length := by
    intro event rest h
    rw [List.pairwise_map]
    exact h.imp fun hlt => Nat.succ_lt_succ hlt
  induction calls with
  | nil => exact .nil
  | cons event rest ih =>
    cases event with
    | visit b => exact hmap _ _ ih
    | enter =>
      rw [openings]
      by_cases hzero : overdraft rest = 0
      · rw [if_pos hzero]
        refine .cons ?_ (hmap _ _ ih)
        intro later hlater
        obtain ⟨tail, -, rfl⟩ := List.mem_map.mp hlater
        exact Nat.succ_pos _
      · rw [if_neg hzero]
        exact hmap _ _ ih
    | leave => exact hmap _ _ ih

/-! ## 5. One more hook -/

theorem overdraft_concat_visit (calls : List (Event β)) (b : β) :
    overdraft (calls ++ [.visit b]) = overdraft calls := by
  induction calls with
  | nil => rfl
  | cons event rest ih => cases event <;> simp only [List.cons_append, overdraft, ih]

theorem overdraft_concat_enter (calls : List (Event β)) :
    overdraft (calls ++ [.enter]) = overdraft calls := by
  induction calls with
  | nil => rfl
  | cons event rest ih => cases event <;> simp only [List.cons_append, overdraft, ih]

theorem openings_concat_visit (calls : List (Event β)) (b : β) :
    openings (calls ++ [.visit b]) = openings calls := by
  induction calls with
  | nil => rfl
  | cons event rest ih =>
    cases event <;> simp only [List.cons_append, openings, overdraft_concat_visit, ih]

theorem openings_concat_enter (calls : List (Event β)) :
    openings (calls ++ [.enter]) = openings calls ++ [calls] := by
  induction calls with
  | nil => rfl
  | cons event rest ih =>
    cases event with
    | visit b => simp [openings, ih]
    | enter =>
      simp only [List.cons_append, openings, overdraft_concat_enter, ih, List.map_append]
      split <;> rfl
    | leave => simp [openings, ih]

-- A `leave` at the end finds an `enter` if and only if a level is open.
theorem overdraft_concat_leave (calls : List (Event β)) :
    overdraft (calls ++ [.leave]) = overdraft calls + if openings calls = [] then 1 else 0 := by
  induction calls with
  | nil => rfl
  | cons event rest ih =>
    cases event with
    | visit b => simp [overdraft, openings, ih]
    | enter =>
      -- the first hook answers for the last one if nothing else does
      rw [List.cons_append, overdraft, overdraft, ih, openings]
      by_cases hzero : overdraft rest = 0
      · rw [if_pos hzero, if_neg (List.cons_ne_nil _ _), hzero]
        split <;> rfl
      · simp only [if_neg hzero, List.map_eq_nil_iff]
        omega
    | leave =>
      simp only [List.cons_append, overdraft, openings, ih, List.map_eq_nil_iff]
      omega

/-- A `leave` closes the innermost level that is open, if there is one. -/
theorem openings_concat_leave (calls : List (Event β)) :
    openings (calls ++ [.leave]) = (openings calls).dropLast := by
  induction calls with
  | nil => rfl
  | cons event rest ih =>
    cases event with
    | visit b => simp [openings, ih, List.map_dropLast]
    | enter =>
      rw [List.cons_append, openings, openings, overdraft_concat_leave, ih, List.map_dropLast]
      by_cases hopen : openings rest = []
      · -- the level of the first hook is the innermost one, if it is open
        rw [if_pos hopen, if_neg (Nat.succ_ne_zero _), hopen, List.map_nil]
        split <;> rfl
      · have hne : (openings rest).map (.enter :: ·) ≠ [] := by
          rwa [Ne, List.map_eq_nil_iff]
        rw [if_neg hopen, Nat.add_zero]
        by_cases hzero : overdraft rest = 0
        · rw [if_pos hzero, if_pos hzero, List.dropLast_cons_of_ne_nil hne]
        · rw [if_neg hzero, if_neg hzero]
    | leave => simp [openings, ih, List.map_dropLast]

theorem Nested.openings_append {inner : List (Event β)} (h : Nested inner)
    (calls : List (Event β)) : openings (calls ++ inner) = openings calls := by
  induction h generalizing calls with
  | nil => rw [List.append_nil]
  | visit b _ ih =>
    rw [List.append_cons, ih, openings_concat_visit]
  | @level inner rest _ _ ihinner ihrest =>
    rw [List.append_cons, ← List.append_assoc, List.append_cons, ihrest, openings_concat_leave,
      ihinner, openings_concat_enter, List.dropLast_concat]

end TreeTraversal
