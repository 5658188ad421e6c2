import TreeTraversal.Proofs.Drawing.AnyUse
import TreeTraversal.Proofs.Visitor.Levels

/-!
# Two counts of levels

Two visitors count the levels that are open. Where a level is left that was not entered, a recording
visitor counts on below zero and remembers the underflow, and a directory visitor refuses the call and
stays at zero. Whatever the order of the hooks, the first is right about how they nest, and up to the
first underflow the second agrees with it.
-/

namespace TreeTraversal

/-! ## 1. The count of a recording visitor -/

namespace Recording

variable {α ε : Type} {r : Recording α} {calls : List (Event (Node α))}

theorem depth_after (r : Recording α) (event : Event (Node α)) :
    ((visitor : Visitor α ε (Recording α)).after r event).depth = r.depth + height [event] := by
  cases event with
  | visit n => exact (Int.add_zero r.depth).symm
  | enter => rfl
  | leave => rfl

theorem underflow_after_iff (r : Recording α) (event : Event (Node α)) :
    ((visitor : Visitor α ε (Recording α)).after r event).underflow = true ↔
      r.underflow = true ∨ event = .leave ∧ r.depth = 0 := by
  cases event with
  | visit n =>
    show r.underflow = true ↔ _
    simp
  | enter =>
    show r.underflow = true ↔ _
    simp
  | leave =>
    show (r.underflow || r.depth == 0) = true ↔ _
    simp

theorem maxDepth_after (h : r.depth ≤ r.maxDepth) (event : Event (Node α)) :
    ((visitor : Visitor α ε (Recording α)).after r event).maxDepth
      = max r.maxDepth (r.depth + height [event]) := by
  cases event with
  | visit n =>
    show r.maxDepth = _
    rw [height_visit]
    omega
  | enter => rfl
  | leave =>
    show r.maxDepth = _
    rw [height_leave]
    omega

/-- The depth is the height of these hooks, the greatest depth is the greatest height of a beginning of
them, and there was an underflow if some beginning has a height below zero. -/
structure Counts (calls : List (Event (Node α))) (r : Recording α) : Prop where
  depth_eq : r.depth = height calls
  underflow_iff : r.underflow = true ↔ ∃ before, before <+: calls ∧ height before < 0
  height_le : ∀ before, before <+: calls → height before ≤ r.maxDepth
  exists_height_eq : ∃ before, before <+: calls ∧ height before = r.maxDepth

theorem Counts.after (h : Counts calls r) (event : Event (Node α)) :
    Counts (calls ++ [event]) ((visitor : Visitor α ε (Recording α)).after r event) := by
  have hdepth := h.depth_eq
  have hheight : height (calls ++ [event]) = r.depth + height [event] := by
    rw [height_append, hdepth]
  have hmax := maxDepth_after (ε := ε) (hdepth ▸ h.height_le calls List.prefix_rfl) event
  refine ⟨?_, ?_, ?_, ?_⟩
  · rw [depth_after, hheight]
  · rw [underflow_after_iff, h.underflow_iff]
    constructor
    · rintro (⟨before, hbefore, hneg⟩ | ⟨rfl, hzero⟩)
      · exact ⟨before, hbefore.trans (List.prefix_append _ _), hneg⟩
      · refine ⟨calls ++ [.leave], List.prefix_rfl, ?_⟩
        rw [hheight, hzero, height_leave]
        omega
    · rintro ⟨before, hbefore, hneg⟩
      rcases List.prefix_concat_iff.mp hbefore with rfl | hbefore
      · by_cases hbelow : height calls < 0
        · exact .inl ⟨calls, List.prefix_rfl, hbelow⟩
        · -- only a `leave` at height zero leads below zero
          right
          cases event with
          | visit n =>
            rw [height_visit] at hheight
            omega
          | enter =>
            rw [height_enter] at hheight
            omega
          | leave =>
            rw [height_leave] at hheight
            exact ⟨rfl, by omega⟩
      · exact .inl ⟨before, hbefore, hneg⟩
  · intro before hbefore
    rw [hmax]
    rcases List.prefix_concat_iff.mp hbefore with rfl | hbefore
    · rw [hheight]
      exact Int.le_max_right _ _
    · exact Int.le_trans (h.height_le before hbefore) (Int.le_max_left _ _)
  · rw [hmax]
    by_cases hnew : r.maxDepth ≤ r.depth + height [event]
    · refine ⟨calls ++ [event], List.prefix_rfl, ?_⟩
      rw [hheight, Int.max_eq_right hnew]
    · obtain ⟨before, hbefore, heq⟩ := h.exists_height_eq
      refine ⟨before, hbefore.trans (List.prefix_append _ _), ?_⟩
      rw [heq, Int.max_eq_left (by omega)]

theorem counts_afterAll (calls : List (Event (Node α))) :
    Counts calls ((visitor : Visitor α ε (Recording α)).afterAll {} calls) := by
  induction calls using List.reverseRecOn with
  | nil =>
    refine ⟨rfl, ?_, ?_, [], List.prefix_rfl, rfl⟩
    · simp [Visitor.afterAll]
    · simp [Visitor.afterAll]
  | append_singleton calls event ih =>
    rw [Visitor.afterAll_concat]
    exact ih.after event

theorem Counts.isBalanced_iff (h : Counts calls r) : r.isBalanced = true ↔ Nested calls := by
  have hunderflow : r.underflow = false ↔ ∀ before, before <+: calls → 0 ≤ height before := by
    rw [← Bool.not_eq_true, h.underflow_iff]
    simp
  rw [nested_iff_heights, ← h.depth_eq, ← hunderflow]
  simp [isBalanced]

end Recording

/-! ## 2. The count of a directory visitor -/

namespace Directory

theorem handle_unmatchedLeave_iff (event : Event (Node Value)) (d : Directory) :
    (∃ d', (visitor : Visitor Value Error Directory).handle event d = .error .unmatchedLeave d') ↔
      event = .leave ∧ d.depth = 0 := by
  cases event with
  | visit n =>
    refine iff_of_false ?_ nofun
    rintro ⟨d', hdraw⟩
    cases draw_fault n d d' _ hdraw
  | enter => exact iff_of_false nofun nofun
  | leave =>
    constructor
    · rintro ⟨d', hleave⟩
      exact ⟨rfl, ((tryLeave_eq_error_iff d _ d').mp hleave).1⟩
    · rintro ⟨-, hdepth⟩
      exact ⟨d, tryLeave_of_closed hdepth⟩

theorem Stacked.eq_unmatchedLeave_of_error {g : GlyphTexts} {calls : List (Event (Node Value))}
    {d d' : Directory} (h : Stacked g calls d) {event : Event (Node Value)} {e : Error}
    (hnode : ∀ n, event = .visit n → ∃ isLast, n.isLastChild = .ok isLast)
    (hfails : (visitor : Visitor Value Error Directory).handle event d = .error e d') :
    e = .unmatchedLeave := by
  cases event with
  | visit n =>
    obtain ⟨isLast, hlast⟩ := hnode n rfl
    have herror := ((h.draw_eq_error_iff n e d').mp hfails).1
    rw [hlast] at herror
    cases herror
  | enter => cases hfails
  | leave => exact ((tryLeave_eq_error_iff d e d').mp hfails).2.1

theorem depth_after {d : Directory} {event : Event (Node Value)}
    (h : ¬ (event = .leave ∧ d.depth = 0)) :
    (((visitor : Visitor Value Error Directory).after d event).depth : Int)
      = d.depth + height [event] := by
  cases event with
  | visit n =>
    have hsame : ((visitor : Visitor Value Error Directory).after d (.visit n)).depth = d.depth :=
      (sameLevels_draw n d).depth_eq
    rw [hsame, height_visit, Int.add_zero]
  | enter => rfl
  | leave =>
    have hopen : d.depth ≠ 0 := fun hdepth => h ⟨rfl, hdepth⟩
    have hleft : (visitor : Visitor Value Error Directory).after d .leave = leave d :=
      stateLeft_of_ok (tryLeave_of_open hopen)
    have hdepth : (leave d).depth = d.depth - 1 := rfl
    rw [hleft, hdepth, height_leave]
    omega

/-- Both visitors have the same number of levels open, or the recording visitor had an underflow. -/
def Agrees (d : Directory) (r : Recording Value) : Prop :=
  r.underflow = true ∨ (d.depth : Int) = r.depth

theorem Agrees.after {d : Directory} {r : Recording Value} (h : Agrees d r)
    (event : Event (Node Value)) :
    Agrees ((visitor : Visitor Value Error Directory).after d event)
      ((Recording.visitor : Visitor Value Error (Recording Value)).after r event) := by
  rcases h with hunderflow | hdepth
  · exact .inl ((Recording.underflow_after_iff r event).mpr (.inl hunderflow))
  · by_cases hfails : event = .leave ∧ d.depth = 0
    · -- the call that one visitor refuses is the underflow of the other
      obtain ⟨rfl, hzero⟩ := hfails
      rw [hzero] at hdepth
      exact .inl ((Recording.underflow_after_iff r .leave).mpr (.inr ⟨rfl, hdepth.symm⟩))
    · right
      rw [depth_after hfails, Recording.depth_after, hdepth]

theorem Agrees.depth_eq {d : Directory} {r : Recording Value} (h : Agrees d r)
    (hfalse : r.underflow = false) : (d.depth : Int) = r.depth := by
  rcases h with hunderflow | hdepth
  · exact absurd (hfalse.symm.trans hunderflow) Bool.false_ne_true
  · exact hdepth

theorem Agrees.isBalanced_eq {d : Directory} {r : Recording Value} (h : Agrees d r)
    (hfalse : r.underflow = false) : d.isBalanced = r.isBalanced := by
  rw [isBalanced, Recording.isBalanced, ← h.depth_eq hfalse, hfalse, Bool.not_false, Bool.and_true,
    Bool.eq_iff_iff, beq_iff_eq, beq_iff_eq, Int.natCast_eq_zero]

theorem agrees_afterAll (sink : Sink) (glyphs : Glyphs) (calls : List (Event (Node Value))) :
    Agrees ((visitor : Visitor Value Error Directory).afterAll { sink, glyphs } calls)
      ((Recording.visitor : Visitor Value Error (Recording Value)).afterAll {} calls) := by
  induction calls using List.reverseRecOn with
  | nil => exact .inr rfl
  | append_singleton calls event ih =>
    rw [Visitor.afterAll_concat, Visitor.afterAll_concat]
    exact ih.after event

end Directory

/-! ## 3. The first underflow -/

namespace Visitor

variable {α ε σ : Type}

/-- Whether the call with this number fails by this error. All calls are made, whatever became of those
before. -/
def FailsAt (v : Visitor α ε σ) (start : σ) (calls : List (Event (Node α))) (e : ε) (k : Nat) :
    Prop :=
  ∃ event, calls[k]? = some event ∧
    ∃ s', v.handle event (v.afterAll start (calls.take k)) = .error e s'

end Visitor

namespace Directory

-- The flag of the recording visitor goes up at the calls that the directory visitor refuses, and stays.
theorem underflow_take_succ_iff (sink : Sink) (glyphs : Glyphs) (calls : List (Event (Node Value)))
    (k : Nat) :
    let drawer : Visitor Value Error Directory := visitor
    let recorder : Visitor Value Error (Recording Value) := Recording.visitor
    (recorder.afterAll {} (calls.take (k + 1))).underflow = true ↔
      (recorder.afterAll {} (calls.take k)).underflow = true ∨
        drawer.FailsAt { sink, glyphs } calls .unmatchedLeave k := by
  intro drawer recorder
  have hagrees := agrees_afterAll sink glyphs (calls.take k)
  rw [List.take_add_one]
  cases hcall : calls[k]? with
  | none =>
    have hno : ¬ drawer.FailsAt { sink, glyphs } calls .unmatchedLeave k := by
      rintro ⟨event, hevent, -⟩
      rw [hcall] at hevent
      cases hevent
    simp [hno]
  | some event =>
    have hfails : drawer.FailsAt { sink, glyphs } calls .unmatchedLeave k ↔
        event = .leave ∧ (drawer.afterAll { sink, glyphs } (calls.take k)).depth = 0 := by
      rw [← handle_unmatchedLeave_iff]
      simp only [Visitor.FailsAt, hcall, Option.some.injEq, exists_eq_left']
      rfl
    rw [Option.toList_some, Visitor.afterAll_concat, Recording.underflow_after_iff, hfails]
    rcases hagrees with hunderflow | hdepth
    · exact iff_of_true (.inl hunderflow) (.inl hunderflow)
    · rw [← hdepth, Int.natCast_eq_zero]

theorem exists_failsAt_iff (sink : Sink) (glyphs : Glyphs) (calls : List (Event (Node Value)))
    (k : Nat) :
    let drawer : Visitor Value Error Directory := visitor
    let recorder : Visitor Value Error (Recording Value) := Recording.visitor
    (∃ j < k, drawer.FailsAt { sink, glyphs } calls .unmatchedLeave j) ↔
      (recorder.afterAll {} (calls.take k)).underflow = true := by
  intro drawer recorder
  induction k with
  | zero => simp [Visitor.afterAll]
  | succ k ih =>
    rw [Nat.exists_lt_succ_right, ih]
    exact (underflow_take_succ_iff sink glyphs calls k).symm

/-- **Both counts of levels agree with the nesting of brackets.** Let a fresh recording visitor and a
fresh directory visitor be told of any hooks in any order. The recording visitor ends balanced if and
only if the `enter` and `leave` among the hooks nest; it had an underflow if and only if some beginning
of the hooks has more `leave` than `enter`; and its greatest depth is the greatest difference between
the two over all beginnings, the empty one among them. The first call at which the directory visitor
says that a level was left without having been entered is the call at which the recording visitor sets
its flag. Up to there both are at the same depth, and if there is no such call, both or neither are
balanced in the end. With texts for glyphs and nodes that can tell whether they are last children, no
call fails in another way. -/
theorem level_counts_agree (sink : Sink) (glyphs : Glyphs) (calls : List (Event (Node Value))) :
    let drawer : Visitor Value Error Directory := visitor
    let recorder : Visitor Value Error (Recording Value) := Recording.visitor
    let d := fun k => drawer.afterAll { sink, glyphs } (calls.take k)
    let r := fun k => recorder.afterAll {} (calls.take k)
    let dEnd := drawer.afterAll { sink, glyphs } calls
    let rEnd := recorder.afterAll {} calls
    let FailsAt := drawer.FailsAt { sink, glyphs } calls
    (rEnd.isBalanced = true ↔ Nested (calls.filter Event.isBracket)) ∧
    (rEnd.underflow = true ↔
      ∃ before, before <+: calls ∧ before.countP Event.isEnter < before.countP Event.isLeave) ∧
    ((∀ before, before <+: calls → height before ≤ rEnd.maxDepth) ∧
      ∃ before, before <+: calls ∧ height before = rEnd.maxDepth) ∧
    (∀ k, FailsAt .unmatchedLeave k ∧ (∀ j < k, ¬ FailsAt .unmatchedLeave j) ↔
      (r k).underflow = false ∧ (r (k + 1)).underflow = true) ∧
    (∀ k, (∀ j < k, ¬ FailsAt .unmatchedLeave j) → ((d k).depth : Int) = (r k).depth) ∧
    ((∀ k, ¬ FailsAt .unmatchedLeave k) → dEnd.isBalanced = rEnd.isBalanced) ∧
    ((∀ n, .visit n ∈ calls → ∃ isLast, n.isLastChild = .ok isLast) →
      (∃ g : GlyphTexts, glyphs = g.glyphs) → ∀ e k, FailsAt e k → e = .unmatchedLeave) := by
  intro drawer recorder d r dEnd rEnd FailsAt
  have hcounts : Recording.Counts calls rEnd := Recording.counts_afterAll calls
  have hsome : ∀ k, (∃ j < k, FailsAt .unmatchedLeave j) ↔ (r k).underflow = true :=
    exists_failsAt_iff sink glyphs calls
  have hnever : ∀ k, (∀ j < k, ¬ FailsAt .unmatchedLeave j) ↔ (r k).underflow = false := by
    intro k
    rw [← Bool.not_eq_true, ← hsome]
    simp
  refine ⟨?_, ?_, ⟨hcounts.height_le, hcounts.exists_height_eq⟩, ?_, ?_, ?_, ?_⟩
  · rw [nested_brackets_iff]
    exact hcounts.isBalanced_iff
  · rw [hcounts.underflow_iff]
    refine exists_congr fun before => and_congr_right fun _ => ?_
    unfold height
    omega
  · intro k
    constructor
    · rintro ⟨hfails, hbefore⟩
      exact ⟨(hnever k).mp hbefore, (hsome (k + 1)).mp ⟨k, Nat.lt_succ_self k, hfails⟩⟩
    · rintro ⟨hfalse, htrue⟩
      rcases (underflow_take_succ_iff sink glyphs calls k).mp htrue with hearlier | hfails
      · exact absurd (hfalse.symm.trans hearlier) Bool.false_ne_true
      · exact ⟨hfails, (hnever k).mpr hfalse⟩
  · intro k hbefore
    exact (agrees_afterAll sink glyphs (calls.take k)).depth_eq ((hnever k).mp hbefore)
  · intro hnone
    have hfalse : (r calls.length).underflow = false :=
      (hnever calls.length).mp fun j _ => hnone j
    have hr : r calls.length = rEnd := by
      show recorder.afterAll _ (calls.take calls.length) = _
      rw [List.take_length]
    rw [hr] at hfalse
    exact (agrees_afterAll sink glyphs calls).isBalanced_eq hfalse
  · rintro hnodes ⟨g, rfl⟩ e k ⟨event, hevent, d', hfails⟩
    have hstacked : Stacked g (calls.take k) (d k) := (stacked_fresh g sink).afterAll _
    apply hstacked.eq_unmatchedLeave_of_error ?_ hfails
    rintro n rfl
    exact hnodes n (List.mem_of_getElem? hevent)

/-- Hooks that leave as many levels as they enter, but one of them too early. -/
def strayHooks : List (Event (Node Value)) :=
  [.enter, .visit (.wide (.str "x") true []), .enter, .leave, .leave, .leave, .enter]

theorem stray_leave_found_by_both :
    let drawer : Visitor Value Error Directory := visitor
    let recorder : Visitor Value Error (Recording Value) := Recording.visitor
    let rEnd := recorder.afterAll {} strayHooks
    rEnd.depth = 0 ∧ rEnd.maxDepth = 2 ∧ ¬ Nested (strayHooks.filter Event.isBracket) ∧
      drawer.FailsAt {} strayHooks .unmatchedLeave 5 ∧
      (∀ j < 5, ¬ drawer.FailsAt {} strayHooks .unmatchedLeave j) ∧
      ∀ e k, drawer.FailsAt {} strayHooks e k → e = .unmatchedLeave := by
  intro drawer recorder rEnd
  obtain ⟨hbalanced, -, -, hfirst, -, -, honly⟩ := level_counts_agree {} .boxDrawing strayHooks
  have hnodes : ∀ n, Event.visit n ∈ strayHooks → ∃ isLast, n.isLastChild = .ok isLast := by
    intro n hn
    simp only [strayHooks, List.mem_cons, Event.visit.injEq, reduceCtorEq, false_or, or_false,
      List.not_mem_nil] at hn
    rw [hn]
    exact ⟨true, rfl⟩
  obtain ⟨hfails, hbefore⟩ := (hfirst 5).mpr ⟨rfl, rfl⟩
  refine ⟨rfl, rfl, ?_, hfails, hbefore, honly hnodes ⟨⟨"┗", "┣", "┃", " "⟩, rfl⟩⟩
  intro hnested
  cases hbalanced.mpr hnested

end Directory

end TreeTraversal
