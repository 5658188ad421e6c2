import TreeTraversal.Text.Unprintable

/-!
# Printable characters

A character is printable if it is shown as itself. The space is; no other separator is.
-/

namespace TreeTraversal.Text

/-- Whether a number is in one of some ranges that are in ascending order. The search ends at the
first range above the number. -/
def inRanges (n : Nat) : List (Nat × Nat) → Bool
  | [] => false
  | (first, last) :: rest => first ≤ n && (n ≤ last || inRanges n rest)

def isPrintable (c : Char) : Bool :=
  !inRanges c.toNat unprintableRanges

theorem least_le_of_ascendFrom {least : Nat} {ranges : List (Nat × Nat)}
    (h : ascendFrom least ranges = true) : ∀ r ∈ ranges, least ≤ r.1 := by
  induction ranges generalizing least with
  | nil => exact nofun
  | cons r rest ih =>
    rw [ascendFrom, Bool.and_eq_true, decide_eq_true_eq] at h
    intro s hs
    rcases List.mem_cons.mp hs with rfl | hs
    · exact h.1
    · exact Nat.le_trans h.1 (ih h.2 s hs)

-- No range behind one that begins above the number holds the number.
theorem inRanges_iff {least : Nat} {ranges : List (Nat × Nat)} (h : ascendFrom least ranges = true)
    (n : Nat) : inRanges n ranges = true ↔ ∃ r ∈ ranges, r.1 ≤ n ∧ n ≤ r.2 := by
  induction ranges generalizing least with
  | nil => simp [inRanges]
  | cons r rest ih =>
    rw [ascendFrom, Bool.and_eq_true] at h
    rw [inRanges, Bool.and_eq_true, Bool.or_eq_true, decide_eq_true_eq, decide_eq_true_eq, ih h.2]
    constructor
    · rintro ⟨hfirst, hlast | ⟨s, hs, hin⟩⟩
      · exact ⟨r, List.mem_cons_self, hfirst, hlast⟩
      · exact ⟨s, List.mem_cons_of_mem r hs, hin⟩
    · rintro ⟨s, hs, hin⟩
      rcases List.mem_cons.mp hs with rfl | hs
      · exact ⟨hin.1, .inl hin.2⟩
      · exact ⟨Nat.le_trans (least_le_of_ascendFrom h.2 s hs) hin.1, .inr ⟨s, hs, hin⟩⟩

/-- A character is printable if it is in none of the ranges. -/
theorem isPrintable_iff (c : Char) :
    isPrintable c = true ↔ ∀ r ∈ unprintableRanges, ¬ (r.1 ≤ c.toNat ∧ c.toNat ≤ r.2) := by
  rw [isPrintable, Bool.not_eq_true', ← Bool.not_eq_true, inRanges_iff ascendFrom_unprintableRanges]
  simp

example : isPrintable ' ' = true ∧ isPrintable '\n' = false := by decide

end TreeTraversal.Text
