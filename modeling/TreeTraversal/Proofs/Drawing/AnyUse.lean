import Mathlib.Data.List.DropRight
import TreeTraversal.Proofs.Visitor.Levels
import TreeTraversal.Proofs.Walk.Brackets

/-!
# The indent under any use

The hooks of a directory visitor can be called in any order, some of them fail, and the visitor can be
reset in between. What it keeps is said by the hooks since the last reset: a level is open for each
`enter` that is not left again, and each of these but the outermost has one piece of indent, chosen by
the node that was drawn last before it. A hook that fails changes nothing.
-/

namespace TreeTraversal

/-! ## 1. Pieces of indent -/

/-- What the node of a visit answers when asked whether it is a last child, if it can tell. -/
def Event.answer? : Event (Node Value) → Option Bool
  | .visit n => n.isLastChild.toOption
  | .enter => none
  | .leave => none

/-- Whether the last node visited was a last child, among those that can tell. -/
def lastAnswer (calls : List (Event (Node Value))) : Bool :=
  (calls.filterMap Event.answer?).getLast?.getD false

theorem lastAnswer_concat (calls : List (Event (Node Value))) (event : Event (Node Value)) :
    lastAnswer (calls ++ [event]) = event.answer?.getD (lastAnswer calls) := by
  unfold lastAnswer
  rw [List.filterMap_append, List.getLast?_append]
  cases hanswer : event.answer? <;> simp [hanswer]

/-- The piece of indent of a level that is entered after some hooks. -/
def GlyphTexts.pieceAfter (g : GlyphTexts) (before : List (Event (Node Value))) : String :=
  if lastAnswer before then g.blank else g.pipe

namespace Directory

/-! ## 2. What hooks make of a visitor -/

/-- The visitor has these glyphs, and its levels and its indent are what the hooks have left open. -/
structure Stacked (g : GlyphTexts) (calls : List (Event (Node Value))) (d : Directory) : Prop where
  glyphs_eq : d.glyphs = g.glyphs
  depth_eq : d.depth = (openings calls).length
  segments_eq : d.segments.reverse = (openings calls).tail.map fun before => some (g.pieceAfter before)
  lastWasLast_eq : d.lastWasLast = lastAnswer calls

variable {g : GlyphTexts} {calls : List (Event (Node Value))} {d : Directory}

theorem stacked_fresh (g : GlyphTexts) (sink : Sink) : Stacked g [] { sink, glyphs := g.glyphs } :=
  ⟨rfl, rfl, rfl, rfl⟩

theorem stacked_reset (h : d.glyphs = g.glyphs) : Stacked g [] d.reset :=
  ⟨h, rfl, rfl, rfl⟩

theorem Stacked.indent_eq (h : Stacked g calls d) :
    d.indent = .ok (String.join ((openings calls).tail.map g.pieceAfter)) := by
  have hsegments : d.segments.reverse = ((openings calls).tail.map g.pieceAfter).map some := by
    rw [h.segments_eq, List.map_map]
    rfl
  exact indent_eq_join hsegments

theorem Stacked.exists_branch (h : Stacked g calls d) (isLast : Bool) :
    ∃ text, d.branch isLast = .ok text := by
  unfold branch
  rw [h.glyphs_eq]
  by_cases hdepth : d.depth = 0
  · rw [if_pos hdepth]
    exact ⟨_, rfl⟩
  · rw [if_neg hdepth]
    cases isLast <;> exact ⟨_, rfl⟩

-- Texts are never absent, so that a node which can tell whether it is a last child is drawn.
theorem Stacked.draw_eq_ok (h : Stacked g calls d) {n : Node Value} {isLast : Bool}
    (hlast : n.isLastChild = .ok isLast) :
    ∃ line, (draw n : EStateM Error Directory Unit) d = .ok () (d.withLine line isLast) := by
  obtain ⟨branch, hbranch⟩ := h.exists_branch isLast
  exact ⟨_, draw_of_pieces hlast h.indent_eq hbranch⟩

/-! ## 3. Hooks that fail -/

theorem Stacked.draw_eq_error_iff (h : Stacked g calls d) (n : Node Value) (e : Error)
    (d' : Directory) :
    (draw n : EStateM Error Directory Unit) d = .error e d' ↔ n.isLastChild = .error e ∧ d' = d := by
  cases hlast : n.isLastChild with
  | ok isLast =>
    obtain ⟨line, hdraw⟩ := h.draw_eq_ok hlast
    rw [hdraw]
    simp
  | error f =>
    have hdraw : (draw n : EStateM Error Directory Unit) d = .error f d := draw_of_error hlast d
    rw [hdraw]
    simp [eq_comm]

theorem tryLeave_eq_error_iff (d : Directory) (e : Error) (d' : Directory) :
    (tryLeave : EStateM Error Directory Unit) d = .error e d' ↔
      d.depth = 0 ∧ e = .unmatchedLeave ∧ d' = d := by
  by_cases hdepth : d.depth = 0
  · have hleave : (tryLeave : EStateM Error Directory Unit) d = .error .unmatchedLeave d :=
      tryLeave_of_closed hdepth
    rw [hleave]
    simp [hdepth, eq_comm]
  · rw [tryLeave_of_open hdepth]
    simp [hdepth]

/-! ## 4. One more hook -/

-- Hooks that change no level, and leave nothing more or less open.
theorem Stacked.of_sameLevels (h : Stacked g calls d) {calls' : List (Event (Node Value))}
    {d' : Directory} (hsame : SameLevels d d') (hopenings : openings calls' = openings calls)
    (hlast : d'.lastWasLast = lastAnswer calls') : Stacked g calls' d' := by
  refine ⟨hsame.glyphs_eq.trans h.glyphs_eq, ?_, ?_, hlast⟩
  · rw [hsame.depth_eq, h.depth_eq, hopenings]
  · rw [hsame.segments_eq, h.segments_eq, hopenings]

theorem Stacked.visit (h : Stacked g calls d) (n : Node Value) :
    Stacked g (calls ++ [.visit n]) (stateLeft (draw n : EStateM Error Directory Unit) d) := by
  apply h.of_sameLevels (sameLevels_draw n d) (openings_concat_visit calls n)
  rw [lastAnswer_concat, Event.answer?]
  cases hlast : n.isLastChild with
  | ok isLast =>
    obtain ⟨line, hdraw⟩ := h.draw_eq_ok hlast
    rw [stateLeft_of_ok hdraw]
    rfl
  | error e =>
    rw [stateLeft_of_error (draw_of_error hlast d)]
    exact h.lastWasLast_eq

theorem Stacked.enter (h : Stacked g calls d) : Stacked g (calls ++ [.enter]) (enter d) := by
  have hdepth := h.depth_eq
  refine ⟨h.glyphs_eq, ?_, ?_, ?_⟩
  · rw [openings_concat_enter, List.length_append, ← hdepth]
    rfl
  · rw [openings_concat_enter]
    by_cases hnone : openings calls = []
    · -- the outermost level has no piece
      have hsegments := h.segments_eq
      rw [hnone, List.length_nil] at hdepth
      rw [hnone] at hsegments
      show (if d.depth = 0 then d.segments else _).reverse = _
      rw [if_pos hdepth, hsegments, hnone]
      rfl
    · have hopen : d.depth ≠ 0 := by
        rwa [hdepth, Ne, List.length_eq_zero_iff]
      have hpiece : (if d.lastWasLast then d.glyphs.blank else d.glyphs.pipe)
          = some (g.pieceAfter calls) := by
        rw [h.glyphs_eq, h.lastWasLast_eq]
        unfold GlyphTexts.pieceAfter
        cases lastAnswer calls <;> rfl
      show (if d.depth = 0 then d.segments else _ :: d.segments).reverse = _
      rw [if_neg hopen, hpiece, List.reverse_cons, h.segments_eq, List.tail_append_of_ne_nil hnone,
        List.map_append]
      rfl
  · rw [lastAnswer_concat]
    exact h.lastWasLast_eq

theorem Stacked.leave (h : Stacked g calls d) : Stacked g (calls ++ [.leave]) (leave d) := by
  have hdepth := h.depth_eq
  refine ⟨h.glyphs_eq, ?_, ?_, ?_⟩
  · rw [openings_concat_leave, List.length_dropLast, ← hdepth]
    rfl
  · -- the outermost level has no piece that could be taken away
    have hlength : d.segments.length = d.depth - 1 := by
      rw [← List.length_reverse, h.segments_eq, List.length_map, List.length_tail, hdepth]
    have htail : (if d.depth - 1 = 0 then [] else d.segments.tail) = d.segments.tail := by
      by_cases hone : d.depth - 1 = 0
      · rw [hone] at hlength
        rw [if_pos hone, List.eq_nil_of_length_eq_zero hlength, List.tail_nil]
      · rw [if_neg hone]
    show (if d.depth - 1 = 0 then [] else d.segments.tail).reverse = _
    rw [htail, ← List.dropLast_reverse, h.segments_eq, openings_concat_leave, List.tail_dropLast,
      List.map_dropLast]
  · rw [lastAnswer_concat]
    exact h.lastWasLast_eq

-- A `leave` that fails has no level to close.
theorem Stacked.tryLeave (h : Stacked g calls d) :
    Stacked g (calls ++ [.leave]) (stateLeft (tryLeave : EStateM Error Directory Unit) d) := by
  by_cases hdepth : d.depth = 0
  · have hnone : openings calls = [] := by
      rwa [h.depth_eq, List.length_eq_zero_iff] at hdepth
    have hopenings : openings (calls ++ [.leave]) = openings calls := by
      rw [openings_concat_leave, hnone]
      rfl
    rw [stateLeft_of_error (tryLeave_of_closed hdepth)]
    apply h.of_sameLevels ⟨rfl, rfl, rfl⟩ hopenings
    rw [lastAnswer_concat]
    exact h.lastWasLast_eq
  · rw [stateLeft_of_ok (tryLeave_of_open hdepth)]
    exact h.leave

theorem Stacked.after (h : Stacked g calls d) (event : Event (Node Value)) :
    Stacked g (calls ++ [event]) ((visitor : Visitor Value Error Directory).after d event) := by
  cases event with
  | visit n => exact h.visit n
  | enter => exact h.enter
  | leave => exact h.tryLeave

theorem Stacked.afterAll (h : Stacked g calls d) (later : List (Event (Node Value))) :
    Stacked g (calls ++ later) ((visitor : Visitor Value Error Directory).afterAll d later) := by
  induction later generalizing calls d with
  | nil => rwa [List.append_nil]
  | cons event rest ih =>
    rw [List.append_cons]
    exact ih (h.after event)

/-! ## 5. Any use -/

/-- Something that is done with a directory visitor: one of its hooks is called, or it is reset. -/
inductive Use where
  | hook (event : Event (Node Value))
  | reset

def Use.hook? : Use → Option (Event (Node Value))
  | .hook event => some event
  | .reset => none

/-- The visitor after a use, also after a hook that fails. -/
def afterUse (d : Directory) : Use → Directory
  | .hook event => (visitor : Visitor Value Error Directory).after d event
  | .reset => d.reset

def afterUses (d : Directory) (uses : List Use) : Directory :=
  uses.foldl afterUse d

/-- The hooks that were called since the last reset. -/
def sinceReset (uses : List Use) : List (Event (Node Value)) :=
  (uses.rtakeWhile fun use => use.hook?.isSome).filterMap Use.hook?

theorem sinceReset_concat_hook (uses : List Use) (event : Event (Node Value)) :
    sinceReset (uses ++ [.hook event]) = sinceReset uses ++ [event] := by
  unfold sinceReset
  rw [List.rtakeWhile_concat_pos _ _ _ rfl, List.filterMap_append]
  rfl

theorem sinceReset_concat_reset (uses : List Use) : sinceReset (uses ++ [.reset]) = [] := by
  unfold sinceReset
  rw [List.rtakeWhile_concat_neg _ _ _ Bool.false_ne_true]
  rfl

theorem stacked_afterUses (g : GlyphTexts) (sink : Sink) (uses : List Use) :
    Stacked g (sinceReset uses) (afterUses { sink, glyphs := g.glyphs } uses) := by
  induction uses using List.reverseRecOn with
  | nil => exact stacked_fresh g sink
  | append_singleton uses use ih =>
    have hafter : afterUses { sink, glyphs := g.glyphs } (uses ++ [use])
        = afterUse (afterUses { sink, glyphs := g.glyphs } uses) use :=
      List.foldl_concat _ _ _ _
    rw [hafter]
    cases use with
    | hook event =>
      rw [sinceReset_concat_hook]
      exact ih.after event
    | reset =>
      rw [sinceReset_concat_reset]
      exact stacked_reset ih.glyphs_eq

/-- **The indent stack is what the hooks left open.** Let a directory visitor with any texts for glyphs,
empty ones among them, be used in any way: hooks are called in any order, some of them fail, and the
visitor is reset in between. Take the `enter` since the last reset whose level no later hook has left.
There are as many of them as there are open levels. The indent has a piece for each of them but the
outermost, the outermost first: a blank if the last node drawn before it since the reset was a last
child, and a pipe otherwise. A level cannot be left if and only if none is open, a node cannot be drawn
if and only if it cannot tell whether it is a last child, and a hook that fails changes nothing. So an
`enter`, hooks that nest and a `leave` restore the depth and the indent. -/
theorem indent_is_left_open (g : GlyphTexts) (sink : Sink) (uses : List Use) :
    let drawer : Visitor Value Error Directory := visitor
    let d := afterUses { sink, glyphs := g.glyphs } uses
    let calls := sinceReset uses
    let opened := openings calls
    ((∀ before, before ∈ opened ↔
        ∃ after, calls = before ++ .enter :: after ∧ ¬ LeavesLevel after) ∧
      opened.Pairwise fun before before' => before.length < before'.length) ∧
    d.depth = opened.length ∧
    d.indent = .ok (String.join (opened.tail.map g.pieceAfter)) ∧
    (∀ e d', drawer.handle .leave d = .error e d' ↔ d.depth = 0 ∧ e = .unmatchedLeave ∧ d' = d) ∧
    (∀ n e d', drawer.handle (.visit n) d = .error e d' ↔ n.isLastChild = .error e ∧ d' = d) ∧
    (∀ e d', drawer.handle .enter d ≠ .error e d') ∧
    ∀ inner, Nested inner →
      let d' := drawer.afterAll d (.enter :: (inner ++ [.leave]))
      d'.depth = d.depth ∧ d'.indent = d.indent := by
  intro drawer d calls opened
  have hstacked : Stacked g calls d := stacked_afterUses g sink uses
  refine ⟨⟨mem_openings_iff calls, pairwise_openings calls⟩, hstacked.depth_eq, hstacked.indent_eq,
    ?_, ?_, ?_, ?_⟩
  · exact tryLeave_eq_error_iff d
  · exact hstacked.draw_eq_error_iff
  · -- to enter a level is only an assignment
    intro e d'
    exact nofun
  · intro inner hinner d'
    have hlevel : Stacked g (calls ++ .enter :: (inner ++ [.leave])) d' := hstacked.afterAll _
    have hsame : openings (calls ++ .enter :: (inner ++ [.leave])) = openings calls :=
      hinner.wrap.openings_append calls
    constructor
    · rw [hlevel.depth_eq, hsame, hstacked.depth_eq]
    · rw [hlevel.indent_eq, hsame, hstacked.indent_eq]

/-- Texts of which one is empty. -/
def hollowTexts : GlyphTexts := ⟨"L", "B", "", "--"⟩

def mute : Node Value := .binary (.str "m") none none

/-- Uses with a reset, of which two fail: a `leave` without a level, and a visit of a node that cannot
tell whether it is a last child. -/
def motleyUses : List Use :=
  [.hook .enter, .reset, .hook .leave, .hook .enter, .hook (.visit (.wide (.str "x") true [])),
    .hook (.visit mute), .hook .enter, .hook (.visit (.wide (.str "y") false [])), .hook .enter]

theorem motley_uses_leave_three_levels_open :
    let drawer : Visitor Value Error Directory := visitor
    let d := afterUses { glyphs := hollowTexts.glyphs } motleyUses
    let d' := drawer.afterAll d [.enter, .visit mute, .enter, .leave, .leave]
    d.depth = 3 ∧ d.indent = .ok "--" ∧
      drawer.handle (.visit mute) d = .error (.noSiblingOrder .binary) d ∧
      d'.depth = 3 ∧ d'.indent = .ok "--" := by
  intro drawer d d'
  obtain ⟨-, hdepth, hindent, -, hvisit, -, hlevel⟩ := indent_is_left_open hollowTexts {} motleyUses
  have hindent : d.indent = .ok "--" := hindent.trans rfl
  have hinner : Nested [Event.visit mute, .enter, .leave] := .visit mute (.level .nil .nil)
  obtain ⟨hdepth', hindent'⟩ := hlevel _ hinner
  exact ⟨hdepth, hindent, (hvisit mute _ d).mpr ⟨rfl, rfl⟩, hdepth'.trans hdepth,
    hindent'.trans hindent⟩

end Directory

end TreeTraversal
